import LessonScript.Proofs.Nearest
import LessonScript.Proofs.Places
import LessonScript.Proofs.Printing

/-! # Integers are printed with all their digits

An integer up to `2 ^ 53` in absolute value is a number (`value_nearestRat_of_le`). Its shortest decimal
is the integer itself, less the zeros behind: no other multiple of ten rounds to it
(`eq_of_nearestRat_eq`), so no grid coarser than its zeros allow has a point for it. The zeros come back
when the point is put behind them.

Main statement: `write_ofInt`. -/

namespace LessonScript

open Binary64

namespace Binary64

/-- An integer up to `2 ^ 53` is not rounded. -/
theorem value_nearestRat_of_le {n : Nat} (hn : n ≤ 2 ^ 53) :
    nearestRat n < infinityBits ∧ value (nearestRat n) = n := by
  rcases hn.lt_or_eq with hlt | rfl
  · exact value_nearestRat_natCast hlt
  · have h := value_nearestRat_two_pow (k := 53) (by decide)
    rwa [← Nat.cast_ofNat, ← Nat.cast_pow] at h

/-- **No other multiple of ten rounds to an integer up to `2 ^ 53`.** The next integer after `2 ^ 53`
does round to it, but ends in another digit. -/
theorem eq_of_nearestRat_eq {n p : Nat} (hn : n ≤ 2 ^ 53) (hp : 10 ∣ p)
    (h : nearestRat p = nearestRat n) : p = n := by
  obtain ⟨hfin, hvalue⟩ := value_nearestRat_of_le hn
  rcases Nat.lt_or_ge (2 ^ 53) p with hlt | hle
  -- A number beyond is nearer to `2 ^ 53 + 2`.
  · have hbeyond : 2 ^ 53 + 2 ≤ p := by omega
    obtain ⟨hfin', hvalue'⟩ := value_nearestRat_of_lt (n := 2 ^ 52 + 1) (k := 1) (by decide) (by decide)
    have hne : nearestRat ((2 ^ 52 + 1 : Nat) * 2 ^ 1) ≠ nearestRat n := by
      intro heq
      rw [heq, hvalue] at hvalue'
      have : n = (2 ^ 52 + 1) * 2 ^ 1 := by exact_mod_cast hvalue'
      omega
    have hp0 : (0 : ℚ) ≤ p := Nat.cast_nonneg p
    have hnearest := (isNearest_nearestRat hp0).nearest (h ▸ hfin) _ hfin' (h ▸ hne)
    have hnle : (n : ℚ) ≤ 2 ^ 53 := by exact_mod_cast hn
    have hple : (2 ^ 53 + 2 : ℚ) ≤ p := by exact_mod_cast hbeyond
    rw [h, hvalue, hvalue', abs_of_nonneg (by linarith), abs_of_nonneg (by push_cast; linarith)] at hnearest
    push_cast at hnearest
    rcases hnearest with hlt | ⟨heq, -⟩ <;> linarith
  · have hpvalue := (value_nearestRat_of_le hle).2
    rw [h, hvalue] at hpvalue
    exact_mod_cast hpvalue.symm

/-- An integer as the quotient of a mantissa, shifted as far as it has to be, and a power of two. -/
theorem mul_pow_toNat_eq {k n : Nat} {e : Int} (h : (k : ℚ) * (2 : ℚ) ^ e = n) :
    k * Nat.pow 2 e.toNat = n * Nat.pow 2 (-e).toNat := by
  rcases le_total 0 e with he | he
  · obtain ⟨a, rfl⟩ := Int.eq_ofNat_of_zero_le he
    rw [zpow_natCast] at h
    rw [Int.toNat_natCast, Int.toNat_eq_zero.mpr (by omega), Nat.pow_eq, Nat.pow_eq, Nat.pow_zero,
      Nat.mul_one]
    exact_mod_cast h
  · obtain ⟨a, ha⟩ := Int.eq_ofNat_of_zero_le (Int.neg_nonneg_of_nonpos he)
    obtain rfl : e = -a := by omega
    rw [zpow_neg, zpow_natCast, ← div_eq_mul_inv, div_eq_iff (pow_ne_zero a two_ne_zero)] at h
    rw [Int.toNat_eq_zero.mpr he, ha, Int.toNat_natCast, Nat.pow_eq, Nat.pow_eq, Nat.pow_zero,
      Nat.mul_one]
    exact_mod_cast h

end Binary64

/-! ### The shortest decimal of an integer -/

/-- The first place of a range at which something is found. -/
theorem findSome?_range {α : Type} {f : Nat → Option α} {n i : Nat} {a : α} (hi : i < n)
    (hf : f i = some a) (hnone : ∀ j < i, f j = none) : (List.range n).findSome? f = some a := by
  obtain ⟨k, rfl⟩ := Nat.exists_eq_add_of_lt hi
  refine List.findSome?_eq_some_iff.mpr
    ⟨List.range i, i, (List.range k).map fun j => i + (j + 1), ?_, hf, ?_⟩
  · rw [Nat.add_assoc, List.range_add, List.range_succ_eq_map, List.map_cons, List.map_map]
    rfl
  · exact fun j hj => hnone j (List.mem_range.mp hj)

namespace Decimal

theorem exp_of_onGrid? {num den bits : Nat} {exp : Int} {d : Decimal}
    (h : onGrid? num den bits exp = some d) : d.exp = exp := by
  unfold onGrid? at h
  dsimp only at h
  split_ifs at h <;> exact Option.some.inj h ▸ rfl

variable {m z num den : Nat}

/-- The grid of the zeros of an integer has the integer itself as a point. -/
theorem onGrid?_of_exact (hden : 0 < den) (hnum : num = m * 10 ^ z * den) :
    onGrid? num den (nearestRat (m * 10 ^ z : Nat)) z = some ⟨m, z⟩ := by
  have hscaledNum : scaledNum 10 num z = m * scaledDen 10 den z := by
    rw [scaledNum, scaledDen, hnum, Int.toNat_natCast, Int.toNat_eq_zero.mpr (by omega)]
    simp only [Nat.pow_eq, Nat.pow_zero, Nat.mul_one]
    ring
  have hpos : 0 < scaledDen 10 den z := scaledDen_pos (by decide) hden z
  have hround : roundsTo (nearestRat (m * 10 ^ z : Nat)) ⟨m, z⟩ = true := by
    rw [roundsTo_iff, value, zpow_natCast]
    push_cast
    rfl
  unfold onGrid?
  dsimp only
  rw [hscaledNum, Nat.mul_div_cancel _ hpos, Nat.mul_mod_left, if_pos hround,
    if_neg (by simp [hpos.ne'])]

variable (hn : m * 10 ^ z ≤ 2 ^ 53) (hm : ¬ 10 ∣ m)
include hn hm

/-- A grid that is coarser than the zeros of an integer allow has no point for it. -/
theorem onGrid?_of_coarser {j : Nat} (hj : z < j) :
    onGrid? num den (nearestRat (m * 10 ^ z : Nat)) j = none := by
  rcases hd : onGrid? num den (nearestRat (m * 10 ^ z : Nat)) j with _ | d
  · rfl
  have hround := roundsTo_iff.mp (roundsTo_of_onGrid? hd)
  have hvalue : d.value = (d.coeff * 10 ^ j : Nat) := by
    rw [value, exp_of_onGrid? hd, zpow_natCast]
    push_cast
    rfl
  have hten : 10 ∣ d.coeff * 10 ^ j := Dvd.dvd.mul_left (dvd_pow_self 10 (by omega)) _
  rw [hvalue] at hround
  have heq := eq_of_nearestRat_eq hn hten hround
  have hdvd : 10 ^ z * 10 ∣ 10 ^ z * m := by
    rw [← Nat.pow_succ, Nat.mul_comm _ m, ← heq]
    exact Dvd.dvd.mul_left (Nat.pow_dvd_pow 10 hj) _
  exact absurd (Nat.dvd_of_mul_dvd_mul_left (Nat.pow_pos (by decide)) hdvd) hm

/-- The grid of the zeros of an integer is among those that are tried for it. -/
theorem coarse_bounds {k : Nat} {e : Int} (hvalue : (k : ℚ) * (2 : ℚ) ^ e = (m * 10 ^ z : Nat)) :
    (z : Int) ≤ coarse k e ∧ coarse k e < z + 22 := by
  have hm0 : m ≠ 0 := by
    rintro rfl
    exact hm (dvd_zero 10)
  have hpos : 0 < m * 10 ^ z := Nat.mul_pos (Nat.pos_of_ne_zero hm0) (Nat.pow_pos (by decide))
  have hk : 0 < k := by
    rcases k.eq_zero_or_pos with rfl | hk
    · rw [Nat.cast_zero, zero_mul] at hvalue
      exact absurd hvalue.symm (by exact_mod_cast hpos.ne')
    · exact hk
  have hlog : (k.log2 : Int) + e = (m * 10 ^ z).log2 := by
    have hlogs := log_mul_zpow hpos 0
    rw [zpow_zero, mul_one, add_zero, ← hvalue, log_mul_zpow hk] at hlogs
    exact hlogs
  have hlt : (m * 10 ^ z).log2 < 54 := (Nat.log2_lt hpos.ne').mpr (by omega)
  have hzeros : 3 * z ≤ (m * 10 ^ z).log2 := by
    rw [Nat.le_log2 hpos.ne', Nat.pow_mul]
    calc (2 ^ 3) ^ z ≤ 10 ^ z := Nat.pow_le_pow_left (by decide) z
      _ ≤ m * 10 ^ z := Nat.le_mul_of_pos_left _ (Nat.pos_of_ne_zero hm0)
  rw [coarse, hlog]
  omega

/-- **The shortest decimal of an integer** is the integer without the zeros behind it. -/
theorem shortest_nearestRat : shortest (nearestRat (m * 10 ^ z : Nat)) = ⟨m, z⟩ := by
  obtain ⟨-, hvalue⟩ := value_nearestRat_of_le hn
  unfold Binary64.value at hvalue
  obtain ⟨hlow, hhigh⟩ := coarse_bounds hn hm hvalue
  unfold shortest
  rcases hdecode : decode (nearestRat (m * 10 ^ z : Nat)) with ⟨k, e⟩
  rw [hdecode] at hvalue hlow hhigh
  dsimp only at hvalue hlow hhigh ⊢
  have hden : 0 < Nat.pow 2 (-e).toNat := Nat.pow_pos (by decide)
  have hnum : k * Nat.pow 2 e.toNat = m * 10 ^ z * Nat.pow 2 (-e).toNat := mul_pow_toNat_eq hvalue
  have hfind := findSome?_range (i := (coarse k e - z).toNat) (n := 22)
    (f := fun i : Nat => onGrid? (k * Nat.pow 2 e.toNat) (Nat.pow 2 (-e).toNat)
      (nearestRat (m * 10 ^ z : Nat)) (coarse k e - i)) (a := ⟨m, z⟩) (by omega) ?_ fun j hj => ?_
  · rw [hfind, Option.getD_some]
  · rw [show coarse k e - ((coarse k e - z).toNat : Nat) = z by omega]
    exact onGrid?_of_exact hden hnum
  · obtain ⟨i, hi⟩ := Int.eq_ofNat_of_zero_le (show 0 ≤ coarse k e - j by omega)
    rw [hi]
    exact onGrid?_of_coarser hn hm (by omega)

end Decimal

/-! ### Layout -/

theorem toDigits_mul_ten_pow {m : Nat} (hm : 0 < m) (z : Nat) :
    Nat.toDigits 10 (m * 10 ^ z) = Nat.toDigits 10 m ++ List.replicate z '0' := by
  induction z with
  | zero => simp
  | succ z ih =>
    have hpos : 0 < m * 10 ^ z := Nat.mul_pos hm (Nat.pow_pos (by decide))
    have happend := Nat.toDigits_append_toDigits (b := 10) (d := 0) (by decide) hpos (by decide)
    rw [Nat.pow_succ, ← Nat.mul_assoc, Nat.mul_comm _ 10, ← Nat.add_zero (10 * _), ← happend, ih,
      List.append_assoc, List.replicate_succ']
    rfl

/-- A decimal without places behind the point is an integer, and is written so. -/
theorem NumberLayout.decimal_natCast {m z : Nat} (hm : 0 < m) (hlt : m * 10 ^ z < 10 ^ 21) :
    plain.decimal ⟨m, z⟩ = Nat.toDigits 10 (m * 10 ^ z) := by
  have hlength : (Nat.toDigits 10 m).length + z ≤ 21 := by
    have := (Nat.length_toDigits_le_iff (b := 10) (by decide) (by decide)).mpr hlt
    rwa [toDigits_mul_ten_pow hm, List.length_append, List.length_replicate] at this
  have hrange : plain.leastPoint ≤ ((Nat.toDigits 10 m).length + z : Int) ∧
      ((Nat.toDigits 10 m).length + z : Int) ≤ plain.greatestPoint := by
    simp only [plain]
    omega
  have hzeros : ((Nat.toDigits 10 m).length + z : Int).toNat - (Nat.toDigits 10 m).length = z := by omega
  unfold decimal
  dsimp only
  rw [if_pos hrange, positional, if_pos (by omega), hzeros, toDigits_mul_ten_pow hm]

/-- **An integer up to `2 ^ 53` in absolute value is written as its digits.** -/
theorem write_ofInt {n : Int} (hn : n.natAbs ≤ 2 ^ 53) :
    NumberLayout.plain.write (ofInt n) = integerText n := by
  by_cases h0 : n = 0
  · subst h0
    decide +kernel
  obtain ⟨z, m, hm, habs⟩ := Nat.exists_eq_pow_mul_and_not_dvd (n := n.natAbs) (by omega) 10 (by decide)
  rw [Nat.mul_comm] at habs
  rw [habs] at hn
  have hm0 : 0 < m := by
    rcases m.eq_zero_or_pos with rfl | hm0
    · exact absurd (dvd_zero 10) hm
    · exact hm0
  obtain ⟨hfin, hvalue⟩ := value_nearestRat_of_le hn
  have hmagnitude : magnitude (ofInt n) = nearestRat (m * 10 ^ z : Nat) := by
    rw [ofInt, ← nearestRat_natCast, habs, magnitude_signed _ hfin.le]
  have hnegative : isNegative (ofInt n) = decide (n < 0) := by
    rw [ofInt, ← nearestRat_natCast, habs, isNegative_signed _ hfin.le]
  have hne : nearestRat (m * 10 ^ z : Nat) ≠ 0 := by
    intro h
    rw [h, value_zero] at hvalue
    have : 0 < m * 10 ^ z := Nat.mul_pos hm0 (Nat.pow_pos (by decide))
    exact this.ne (by exact_mod_cast hvalue)
  have hfinite : (ofInt n).isFinite = true := (isFinite_iff_magnitude_lt _).mpr (hmagnitude ▸ hfin)
  rw [write_of_finite hfinite (hmagnitude ▸ hne), hmagnitude, Decimal.shortest_nearestRat hn hm,
    NumberLayout.decimal_natCast hm0 (hn.trans_lt (by decide)), ← habs, hnegative, integerText]
  simp only [decide_eq_true_eq]

end LessonScript
