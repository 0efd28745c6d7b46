import LessonScript.Number.Binary64
import Mathlib.Data.Int.Log
import Mathlib.Data.Rat.Floor
import Mathlib.Algebra.Order.Field.Power
import Mathlib.Tactic.FieldSimp
import Mathlib.Tactic.Linarith
import Mathlib.Tactic.NormNum
import Mathlib.Tactic.Positivity
import Mathlib.Tactic.Ring

/-! # What is rounded

Rounding to binary64 depends on the rational number that is rounded and on nothing else:
`nearest num den` is the pattern `nearestRat (num / den)`, and `nearestDecimal coeff exp`, with its
two short cuts, is `nearestRat (coeff · 10 ^ exp)`. A number that a pattern names is rounded to that
pattern (`nearestRat_value`). -/

namespace LessonScript.Binary64

/-! ### Scaling by a power -/

section Scaled

variable {base num den : Nat} (hbase : 0 < base)
include hbase

theorem scaledDen_pos (hden : 0 < den) (e : Int) : 0 < scaledDen base den e :=
  Nat.mul_pos hden (Nat.pow_pos hbase)

/-- Scaled numerator and denominator are those of the number divided by the power. -/
theorem scaled_div (num den : Nat) (e : Int) :
    (scaledNum base num e : ℚ) / scaledDen base den e = num / den / (base : ℚ) ^ e := by
  have hb : (base : ℚ) ≠ 0 := by exact_mod_cast hbase.ne'
  have hsplit : (base : ℚ) ^ e = (base : ℚ) ^ e.toNat / (base : ℚ) ^ (-e).toNat := by
    rw [← zpow_natCast, ← zpow_natCast, ← zpow_sub₀ hb]
    congr 1
    omega
  rw [scaledNum, scaledDen, hsplit]
  push_cast [Nat.pow_eq]
  field_simp

theorem scaledDen_le_scaledNum_iff (hden : 0 < den) (e : Int) :
    scaledDen base den e ≤ scaledNum base num e ↔ (base : ℚ) ^ e ≤ num / den := by
  have hd : (0 : ℚ) < scaledDen base den e := by exact_mod_cast scaledDen_pos hbase hden e
  have hp : (0 : ℚ) < (base : ℚ) ^ e := zpow_pos (by exact_mod_cast hbase) e
  rw [← one_le_div₀ hp, ← scaled_div hbase, one_le_div₀ hd]
  exact_mod_cast Iff.rfl

end Scaled

/-! ### The binary exponent -/

theorem log_eq_of_bounds {q : ℚ} {e : Int} (hq : 0 < q) (hl : (2 : ℚ) ^ e ≤ q)
    (hu : q < (2 : ℚ) ^ (e + 1)) : Int.log 2 q = e := by
  have hl' := (Int.zpow_le_iff_le_log one_lt_two hq).mp (by exact_mod_cast hl)
  have hu' := (Int.lt_zpow_iff_log_lt one_lt_two hq).mp (by exact_mod_cast hu)
  omega

theorem log2_bounds {n : Nat} (hn : 0 < n) :
    (2 : ℚ) ^ (n.log2 : Int) ≤ n ∧ (n : ℚ) < (2 : ℚ) ^ ((n.log2 : Int) + 1) := by
  constructor
  · rw [zpow_natCast]
    exact_mod_cast Nat.log2_self_le hn.ne'
  · rw [show (n.log2 : Int) + 1 = (n.log2 + 1 : Nat) by omega, zpow_natCast]
    exact_mod_cast Nat.lt_log2_self

theorem log_mul_zpow {m : Nat} (hm : 0 < m) (e : Int) :
    Int.log 2 ((m : ℚ) * (2 : ℚ) ^ e) = (m.log2 : Int) + e := by
  obtain ⟨hl, hu⟩ := log2_bounds hm
  refine log_eq_of_bounds (by positivity) ?_ ?_
  · rw [zpow_add₀ two_ne_zero]
    gcongr
  · rw [add_right_comm, zpow_add₀ two_ne_zero]
    gcongr

/-- The guess that the two logarithms give is right or one too high. -/
theorem div_bounds {num den : Nat} (hnum : 0 < num) (hden : 0 < den) :
    (2 : ℚ) ^ ((num.log2 : Int) - den.log2 - 1) < num / den ∧
      (num / den : ℚ) < (2 : ℚ) ^ ((num.log2 : Int) - den.log2 + 1) := by
  have hd : (0 : ℚ) < den := by exact_mod_cast hden
  obtain ⟨hnl, hnu⟩ := log2_bounds hnum
  obtain ⟨hdl, hdu⟩ := log2_bounds hden
  constructor
  · rw [lt_div_iff₀ hd]
    calc (2 : ℚ) ^ ((num.log2 : Int) - den.log2 - 1) * den
        < (2 : ℚ) ^ ((num.log2 : Int) - den.log2 - 1) * (2 : ℚ) ^ ((den.log2 : Int) + 1) := by
          gcongr
      _ = (2 : ℚ) ^ (num.log2 : Int) := by
          rw [← zpow_add₀ two_ne_zero]
          congr 1
          ring
      _ ≤ num := hnl
  · rw [div_lt_iff₀ hd]
    calc (num : ℚ) < (2 : ℚ) ^ ((num.log2 : Int) + 1) := hnu
      _ = (2 : ℚ) ^ ((num.log2 : Int) - den.log2 + 1) * (2 : ℚ) ^ (den.log2 : Int) := by
          rw [← zpow_add₀ two_ne_zero]
          congr 1
          ring
      _ ≤ (2 : ℚ) ^ ((num.log2 : Int) - den.log2 + 1) * den := by gcongr

theorem floorLog2_eq {num den : Nat} (hnum : 0 < num) (hden : 0 < den) :
    floorLog2 num den = Int.log 2 (num / den : ℚ) := by
  have hq : (0 : ℚ) < num / den := by positivity
  obtain ⟨hl, hu⟩ := div_bounds hnum hden
  unfold floorLog2
  dsimp only
  split_ifs with h <;> rw [scaledDen_le_scaledNum_iff two_pos hden] at h
  · exact (log_eq_of_bounds hq (by exact_mod_cast h) hu).symm
  · refine (log_eq_of_bounds hq hl.le ?_).symm
    rw [sub_add_cancel]
    exact_mod_cast not_le.mp h

/-! ### Rounding to an integer -/

theorem roundHalfEven_mul (num den : Nat) {c : Nat} (hc : 0 < c) :
    roundHalfEven (num * c) (den * c) = roundHalfEven num den := by
  have hlt : den * c < 2 * (num % den * c) ↔ den < 2 * (num % den) := by
    rw [← Nat.mul_assoc, Nat.mul_lt_mul_right hc]
  have heq : 2 * (num % den * c) = den * c ↔ 2 * (num % den) = den := by
    rw [← Nat.mul_assoc, Nat.mul_left_inj hc.ne']
  simp only [roundHalfEven, Nat.mul_div_mul_right _ _ hc, Nat.mul_mod_mul_right, hlt, heq]

/-- Equal quotients are rounded alike. -/
theorem roundHalfEven_congr {num den num' den' : Nat} (hden : 0 < den) (hden' : 0 < den')
    (h : (num / den : ℚ) = num' / den') : roundHalfEven num den = roundHalfEven num' den' := by
  have hcross : num * den' = num' * den := by
    rw [div_eq_div_iff (by exact_mod_cast hden.ne') (by exact_mod_cast hden'.ne')] at h
    exact_mod_cast h
  rw [← roundHalfEven_mul num den hden', hcross, Nat.mul_comm den, roundHalfEven_mul _ _ hden]

theorem roundHalfEven_natCast {num den n : Nat} (hden : 0 < den) (h : (num / den : ℚ) = n) :
    roundHalfEven num den = n := by
  have hone : (num / den : ℚ) = n / (1 : Nat) := by rw [h, Nat.cast_one, div_one]
  rw [roundHalfEven_congr hden one_pos hone]
  simp [roundHalfEven, Nat.mod_one]

theorem roundHalfEven_of_lt_half {num den : Nat} (hden : 0 < den) (h : (num / den : ℚ) < 1 / 2) :
    roundHalfEven num den = 0 := by
  have hlt : 2 * num < den := by
    rw [div_lt_div_iff₀ (by exact_mod_cast hden) two_pos] at h
    have : num * 2 < 1 * den := by exact_mod_cast h
    omega
  have hdiv : num / den = 0 := Nat.div_eq_of_lt (by omega)
  have hmod : num % den = num := Nat.mod_eq_of_lt (by omega)
  rw [roundHalfEven, hdiv, hmod, if_neg (by omega)]

/-! ### Rounding to a pattern -/

theorem roundingExponent_eq {num den : Nat} (hnum : 0 < num) (hden : 0 < den) :
    roundingExponent num den = max (Int.log 2 (num / den : ℚ) - 52) (-1074) := by
  rw [roundingExponent, floorLog2_eq hnum hden]

theorem nearest_le (num den : Nat) : nearest num den ≤ infinityBits := by
  unfold nearest
  split_ifs
  · exact Nat.zero_le _
  · exact Nat.min_le_left _ _

theorem nearestDecimal_le (coeff : Nat) (exp : Int) : nearestDecimal coeff exp ≤ infinityBits := by
  unfold nearestDecimal
  split_ifs
  · exact Nat.zero_le _
  · exact le_rfl
  · exact Nat.zero_le _
  · exact nearest_le _ _

/-- **The pattern of the number nearest to a rational number** that is not negative. -/
def nearestRat (q : ℚ) : Nat := nearest q.num.toNat q.den

theorem nearestRat_zero : nearestRat 0 = 0 := by simp [nearestRat, nearest]

/-- Equal quotients have the same pattern. -/
theorem nearest_congr {num den num' den' : Nat} (hden : 0 < den) (hden' : 0 < den')
    (h : (num / den : ℚ) = num' / den') : nearest num den = nearest num' den' := by
  have hd : (den : ℚ) ≠ 0 := by exact_mod_cast hden.ne'
  have hd' : (den' : ℚ) ≠ 0 := by exact_mod_cast hden'.ne'
  by_cases hnum : num = 0
  · have hnum' : num' = 0 := by
      rw [hnum, Nat.cast_zero, zero_div, eq_comm, div_eq_zero_iff] at h
      exact_mod_cast h.resolve_right hd'
    rw [hnum, hnum', nearest, nearest, if_pos rfl, if_pos rfl]
  · have hnum' : num' ≠ 0 := by
      rintro rfl
      rw [Nat.cast_zero, zero_div, div_eq_zero_iff] at h
      exact hnum (by exact_mod_cast h.resolve_right hd)
    have he : roundingExponent num den = roundingExponent num' den' := by
      rw [roundingExponent_eq (Nat.pos_of_ne_zero hnum) hden,
        roundingExponent_eq (Nat.pos_of_ne_zero hnum') hden', h]
    have hround := roundHalfEven_congr (scaledDen_pos two_pos hden (roundingExponent num' den'))
      (scaledDen_pos two_pos hden' (roundingExponent num' den'))
      (by rw [scaled_div two_pos num den, scaled_div two_pos num' den', h])
    rw [nearest, nearest, if_neg hnum, if_neg hnum']
    dsimp only
    rw [he, hround]

theorem num_div_den_of_nonneg {q : ℚ} (hq : 0 ≤ q) : (q.num.toNat : ℚ) / q.den = q := by
  have hnum : (q.num.toNat : Int) = q.num := Int.toNat_of_nonneg (Rat.num_nonneg.mpr hq)
  rw [← Int.cast_natCast q.num.toNat, hnum, Rat.num_div_den]

/-- **Rounding depends on the quotient alone.** -/
theorem nearest_eq {num den : Nat} (hden : 0 < den) :
    nearest num den = nearestRat (num / den) :=
  nearest_congr hden (Rat.den_pos _) (num_div_den_of_nonneg (by positivity)).symm

section Value

variable {q : ℚ}

theorem num_toNat_pos (hq : 0 < q) : 0 < q.num.toNat := by
  have hnum := Rat.num_pos.mpr hq
  omega

theorem roundingExponent_num_den (hq : 0 < q) :
    roundingExponent q.num.toNat q.den = max (Int.log 2 q - 52) (-1074) := by
  rw [roundingExponent_eq (num_toNat_pos hq) q.den_pos, num_div_den_of_nonneg hq.le]

/-- What is beyond every finite number is rounded to infinity. -/
theorem nearestRat_of_large (h : (2 : ℚ) ^ (1025 : Int) ≤ q) : nearestRat q = infinityBits := by
  have hq : 0 < q := lt_of_lt_of_le (zpow_pos two_pos _) h
  have hlog : 1025 ≤ Int.log 2 q :=
    (Int.zpow_le_iff_le_log one_lt_two hq).mp (by rwa [Nat.cast_ofNat])
  have he : 973 ≤ roundingExponent q.num.toNat q.den := by
    rw [roundingExponent_num_den hq]
    omega
  rw [nearestRat, nearest, if_neg (num_toNat_pos hq).ne', Nat.min_eq_left]
  have hplace : 2047 * leadingBit ≤
      (roundingExponent q.num.toNat q.den + 1074).toNat * leadingBit :=
    Nat.mul_le_mul_right _ (by omega)
  exact (show infinityBits ≤ 2047 * leadingBit by decide).trans
    (hplace.trans (Nat.le_add_right _ _))

/-- What is less than half of the least positive number is rounded to zero. -/
theorem nearestRat_of_small (hq : 0 < q) (h : q < (2 : ℚ) ^ (-1075 : Int)) : nearestRat q = 0 := by
  have hlog : Int.log 2 q < -1075 :=
    (Int.lt_zpow_iff_log_lt one_lt_two hq).mp (by rwa [Nat.cast_ofNat])
  have he : roundingExponent q.num.toNat q.den = -1074 := by
    rw [roundingExponent_num_den hq]
    omega
  have hhalf : (scaledNum 2 q.num.toNat (-1074) : ℚ) / scaledDen 2 q.den (-1074) < 1 / 2 := by
    rw [scaled_div two_pos, num_div_den_of_nonneg hq.le, div_lt_iff₀ (by positivity)]
    calc q < (2 : ℚ) ^ (-1075 : Int) := h
      _ = 1 / 2 * ((2 : Nat) : ℚ) ^ (-1074 : Int) := by
        rw [show (-1075 : Int) = -1 + -1074 by norm_num, zpow_add₀ two_ne_zero]
        norm_num
  rw [nearestRat, nearest, if_neg (num_toNat_pos hq).ne']
  dsimp only
  rw [he, roundHalfEven_of_lt_half (scaledDen_pos two_pos q.den_pos _) hhalf]
  rfl

end Value

/-! ### Decimals -/

/-- Ten is more than eight, so a decimal exponent is worth more than three times as many binary
places. -/
theorem two_zpow_le_ten_zpow {e : Int} (he : 0 ≤ e) : (2 : ℚ) ^ (3 * e) ≤ (10 : ℚ) ^ e := by
  obtain ⟨n, rfl⟩ := Int.eq_ofNat_of_zero_le he
  rw [zpow_mul, zpow_natCast, zpow_natCast]
  exact pow_le_pow_left₀ (by positivity) (by norm_num) n

theorem ten_pow_pos (n : Nat) : 0 < Nat.pow 10 n := Nat.pow_pos (by norm_num)

theorem decimal_quotient (coeff : Nat) (exp : Int) :
    ((coeff * Nat.pow 10 exp.toNat : Nat) : ℚ) / (Nat.pow 10 (-exp).toNat : Nat) =
      coeff * (10 : ℚ) ^ exp := by
  have hsplit : (10 : ℚ) ^ exp = (10 : ℚ) ^ exp.toNat / (10 : ℚ) ^ (-exp).toNat := by
    rw [← zpow_natCast, ← zpow_natCast, ← zpow_sub₀ (by norm_num)]
    congr 1
    omega
  rw [hsplit]
  push_cast [Nat.pow_eq]
  ring

theorem nearest_decimal (coeff : Nat) (exp : Int) :
    nearest (coeff * Nat.pow 10 exp.toNat) (Nat.pow 10 (-exp).toNat) =
      nearestRat (coeff * (10 : ℚ) ^ exp) := by
  rw [nearest_eq (ten_pow_pos _), decimal_quotient]

theorem ten_zpow_le_two_zpow {e : Int} (he : e ≤ 0) : (10 : ℚ) ^ e ≤ (2 : ℚ) ^ (3 * e) := by
  have h := two_zpow_le_ten_zpow (e := -e) (by omega)
  rw [mul_neg, zpow_neg, zpow_neg] at h
  exact (inv_le_inv₀ (by positivity) (by positivity)).mp h

/-- **Rounding a decimal depends on its value alone**: the short cuts for large and small exponents
give what rounding would give. -/
theorem nearestDecimal_eq (coeff : Nat) (exp : Int) :
    nearestDecimal coeff exp = nearestRat (coeff * (10 : ℚ) ^ exp) := by
  unfold nearestDecimal
  split_ifs with hc hlarge hsmall
  · rw [hc, Nat.cast_zero, zero_mul, nearestRat_zero]
  · have hone : (1 : ℚ) ≤ coeff := by exact_mod_cast Nat.pos_of_ne_zero hc
    refine (nearestRat_of_large ?_).symm
    calc (2 : ℚ) ^ (1025 : Int) ≤ (2 : ℚ) ^ (3 * exp) :=
          zpow_le_zpow_right₀ one_le_two (by omega)
      _ ≤ (10 : ℚ) ^ exp := two_zpow_le_ten_zpow (by omega)
      _ ≤ coeff * (10 : ℚ) ^ exp := le_mul_of_one_le_left (by positivity) hone
  · have hpos : (0 : ℚ) < coeff := by exact_mod_cast Nat.pos_of_ne_zero hc
    refine (nearestRat_of_small (by positivity) ?_).symm
    calc (coeff : ℚ) * (10 : ℚ) ^ exp
        < (2 : ℚ) ^ ((coeff.log2 : Int) + 1) * (10 : ℚ) ^ exp := by
          gcongr
          exact (log2_bounds (Nat.pos_of_ne_zero hc)).2
      _ ≤ (2 : ℚ) ^ ((coeff.log2 : Int) + 1) * (2 : ℚ) ^ (3 * exp) := by
          gcongr
          exact ten_zpow_le_two_zpow (by omega)
      _ = (2 : ℚ) ^ ((coeff.log2 : Int) + 1 + 3 * exp) := (zpow_add₀ two_ne_zero _ _).symm
      _ ≤ (2 : ℚ) ^ (-1075 : Int) := zpow_le_zpow_right₀ one_le_two (by omega)
  · exact nearest_decimal coeff exp

/-! ### Patterns -/

/-- **The number that a pattern of a finite number names.** -/
def value (bits : Nat) : ℚ := (decode bits).1 * (2 : ℚ) ^ (decode bits).2

theorem value_zero : value 0 = 0 := by simp [value, decode, leadingBit]

/-- The parts of a pattern: a mantissa that is normalised or has the least exponent, and the place
of the pattern among all. -/
theorem decode_spec {bits : Nat} (hpos : 0 < bits) :
    0 < (decode bits).1 ∧
      max (((decode bits).1.log2 : Int) + (decode bits).2 - 52) (-1074) = (decode bits).2 ∧
      ((decode bits).2 + 1074).toNat * leadingBit + (decode bits).1 = bits := by
  have hlb : leadingBit = 2 ^ 52 := by decide
  unfold decode
  split_ifs with hlow
  · refine ⟨hpos, ?_, by simp⟩
    have hlog : bits.log2 < 52 := (Nat.log2_lt hpos.ne').mpr (hlb ▸ hlow)
    dsimp only
    omega
  · have hdiv : 1 ≤ bits / leadingBit :=
      (Nat.one_le_div_iff (by decide)).mpr (Nat.le_of_not_lt hlow)
    have hmod : bits % leadingBit < leadingBit := Nat.mod_lt _ (by decide)
    have hlog : (leadingBit + bits % leadingBit).log2 = 52 :=
      (Nat.log2_eq_iff (by omega)).mpr ⟨by omega, by omega⟩
    refine ⟨by omega, ?_, ?_⟩
    · dsimp only
      rw [hlog]
      omega
    · dsimp only
      have hplace :
          ((bits / leadingBit : Nat) - 1075 + 1074 : Int).toNat = bits / leadingBit - 1 := by
        omega
      have hsplit := Nat.div_add_mod bits leadingBit
      rw [hplace, Nat.sub_mul, Nat.one_mul]
      have hle : leadingBit ≤ bits / leadingBit * leadingBit := Nat.le_mul_of_pos_left _ hdiv
      rw [Nat.mul_comm] at hsplit
      omega

/-- **A number that a pattern names is rounded to that pattern.** -/
theorem nearestRat_value {bits : Nat} (h : bits < infinityBits) :
    nearestRat (value bits) = bits := by
  rcases Nat.eq_zero_or_pos bits with rfl | hpos
  · rw [value_zero, nearestRat_zero]
  obtain ⟨hm, he, hbits⟩ := decode_spec hpos
  have hvalue : 0 < value bits := by
    have hmq : (0 : ℚ) < (decode bits).1 := by exact_mod_cast hm
    unfold value
    positivity
  have hlog : Int.log 2 (value bits) = ((decode bits).1.log2 : Int) + (decode bits).2 :=
    log_mul_zpow hm _
  have hexp : roundingExponent (value bits).num.toNat (value bits).den = (decode bits).2 := by
    rw [roundingExponent_num_den hvalue, hlog, he]
  have hround : roundHalfEven (scaledNum 2 (value bits).num.toNat (decode bits).2)
      (scaledDen 2 (value bits).den (decode bits).2) = (decode bits).1 := by
    refine roundHalfEven_natCast (scaledDen_pos two_pos (value bits).den_pos _) ?_
    rw [scaled_div two_pos, num_div_den_of_nonneg hvalue.le, value, Nat.cast_ofNat]
    exact mul_div_cancel_right₀ _ (zpow_ne_zero _ two_ne_zero)
  rw [nearestRat, nearest, if_neg (num_toNat_pos hvalue).ne']
  dsimp only
  rw [hexp, hround, hbits, Nat.min_eq_right h.le]

end LessonScript.Binary64
