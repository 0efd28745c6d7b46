import LessonScript.Proofs.Grammar
import LessonScript.Proofs.Numerals

/-! # Printed numbers read back

A finite number is printed by its shortest decimal, which rounds to the number
(`Decimal.nearestRat_shortest`). Wherever the point is put, and whether zeros fill a gap or a power
of ten takes their place, what is printed is a decimal of the same exact value
(`NumberLayout.exists_parts_decimal`). The exponents are far from those at which reading gives up
(`Decimal.leadingExp_lt`), so reading gives the number again.

Main statement: `printed_numbers_read_back`. -/

namespace LessonScript

open Binary64

/-! ### The shortest decimal -/

namespace Decimal

/-- The exact value of a decimal. -/
def value (d : Decimal) : ℚ := d.coeff * (10 : ℚ) ^ d.exp

/-- The digits of a decimal. -/
def digits (d : Decimal) : Text := Nat.toDigits 10 d.coeff

/-- The power of ten at which the first digit stands. -/
def leadingExp (d : Decimal) : Int := d.exp + d.digits.length - 1

theorem roundsTo_iff {bits : Nat} {d : Decimal} :
    d.roundsTo bits = true ↔ nearestRat d.value = bits := by
  rw [roundsTo, beq_iff_eq, nearestDecimal_eq]
  rfl

theorem roundsTo_of_onGrid? {num den bits : Nat} {exp : Int} {d : Decimal}
    (h : onGrid? num den bits exp = some d) : d.roundsTo bits = true := by
  unfold onGrid? at h
  dsimp only at h
  split_ifs at h with hbelow habove habove <;> obtain rfl := Option.some.inj h
  · exact (Bool.and_eq_true_iff.mp habove).1
  · exact hbelow
  · exact habove

theorem value_exact (m : Nat) (e : Int) : (exact m e).value = m * (2 : ℚ) ^ e := by
  unfold value exact
  rcases le_total 0 e with he | he
  · rw [min_eq_right he, Int.toNat_eq_zero.mpr (by omega : -e ≤ 0)]
    have hpow : (2 : ℚ) ^ e = (2 : ℚ) ^ e.toNat := by rw [← zpow_natCast, Int.toNat_of_nonneg he]
    rw [hpow]
    push_cast [Nat.pow_eq]
    ring
  · rw [min_eq_left he, Int.toNat_eq_zero.mpr he]
    have hpow : (5 : ℚ) ^ (-e).toNat = (5 : ℚ) ^ (-e) := by
      rw [← zpow_natCast, Int.toNat_of_nonneg (by omega)]
    push_cast [Nat.pow_eq]
    rw [hpow, show (10 : ℚ) = 2 * 5 by norm_num, mul_zpow, zpow_neg]
    field_simp

/-- **The shortest decimal of a number rounds to the number.** -/
theorem nearestRat_shortest {bits : Nat} (h : bits < infinityBits) :
    nearestRat (shortest bits).value = bits := by
  unfold shortest
  dsimp only
  rcases hgrid : (List.range 22).findSome? _ with _ | d
  · rw [Option.getD_none, value_exact]
    exact nearestRat_value h
  · obtain ⟨i, -, hi⟩ := List.exists_of_findSome?_eq_some hgrid
    exact roundsTo_iff.mp (roundsTo_of_onGrid? hi)

variable {d : Decimal}

theorem digits_isDigit (d : Decimal) : Numeral.Digits d.digits :=
  Range.isDigit_of_mem_toDigits

theorem digits_ne_nil (d : Decimal) : d.digits ≠ [] := Nat.toDigits_ne_nil

theorem ofDigitChars_digits (d : Decimal) : Nat.ofDigitChars 10 d.digits 0 = d.coeff :=
  Nat.ofDigitChars_ten_toDigits

/-- The first digit stands for the order of the value. -/
theorem value_bounds (hd : d.coeff ≠ 0) :
    (10 : ℚ) ^ d.leadingExp ≤ d.value ∧ d.value < (10 : ℚ) ^ (d.leadingExp + 1) := by
  have hpos : 0 < d.digits.length := List.length_pos_iff.mpr d.digits_ne_nil
  have hupper : d.coeff < 10 ^ d.digits.length :=
    (Nat.length_toDigits_le_iff (by decide) hpos).mp le_rfl
  have hlower : 10 ^ (d.digits.length - 1) ≤ d.coeff := by
    rcases Nat.eq_zero_or_pos (d.digits.length - 1) with h | h
    · rw [h]
      exact Nat.pos_of_ne_zero hd
    · have hlen := (Nat.length_toDigits_le_iff (n := d.coeff) (by decide : 1 < 10) h).not.mp
        (show ¬ d.digits.length ≤ _ by omega)
      omega
  have hscale : (0 : ℚ) < (10 : ℚ) ^ d.exp := zpow_pos (by norm_num) _
  constructor
  · rw [leadingExp, show d.exp + d.digits.length - 1 = (d.digits.length - 1 : Nat) + d.exp by omega,
      zpow_add₀ (by norm_num), zpow_natCast, value, mul_le_mul_iff_left₀ hscale]
    exact_mod_cast hlower
  · rw [leadingExp, show d.exp + d.digits.length - 1 + 1 = (d.digits.length : Nat) + d.exp by omega,
      zpow_add₀ (by norm_num), zpow_natCast, value, mul_lt_mul_iff_left₀ hscale]
    exact_mod_cast hupper

end Decimal

/-! ### Layouts -/

namespace Numeral

theorem Mantissa.mem {whole frac m : Text} (hm : Mantissa whole frac m) {c : Char} (h : c ∈ m) :
    c.isDigit = true ∨ c = '.' := by
  cases hm with
  | plain hw => exact .inl (hw c h)
  | pointed hw _ hf =>
    rcases List.mem_append.mp h with h | h
    · exact .inl (hw c h)
    · rcases List.mem_cons.mp h with rfl | h
      · exact .inr rfl
      · exact .inl (hf c h)
  | fraction hf =>
    rcases List.mem_cons.mp h with rfl | h
    · exact .inr rfl
    · exact .inl (hf c h)

theorem Mantissa.mark_not_mem {whole frac m : Text} (hm : Mantissa whole frac m) : 'e' ∉ m := by
  intro h
  rcases hm.mem h with h | h <;> cases h

theorem digits_replicate_zero (n : Nat) : Digits (List.replicate n '0') := by
  intro c h
  rw [List.eq_of_mem_replicate h]
  rfl

/-- The power of ten with its sign and its digits. -/
theorem power_toDigits (exp : Int) :
    Power exp ('e' :: (if exp < 0 then '-' else '+') :: Nat.toDigits 10 exp.natAbs) := by
  have hdigits : Digits (Nat.toDigits 10 exp.natAbs) := Range.isDigit_of_mem_toDigits
  split_ifs with hneg
  · have hp := Power.negative (.inl rfl) hdigits Nat.toDigits_ne_nil
    rwa [Nat.ofDigitChars_ten_toDigits, show -(exp.natAbs : Int) = exp by omega] at hp
  · have hp := Power.positive (.inl rfl) hdigits Nat.toDigits_ne_nil
    rwa [Nat.ofDigitChars_ten_toDigits, show (exp.natAbs : Int) = exp by omega] at hp

end Numeral

namespace NumberLayout

open Numeral

section Digits

variable {digits : Text} (hd : Numeral.Digits digits) (hne : digits ≠ [])
include hd hne

/-- The digits with their point among zeros say the same, whatever the place of the point. -/
theorem exists_mantissa_positional (e : Int) :
    ∃ whole frac, Mantissa whole frac (positional digits (digits.length + e)) ∧
      (Nat.ofDigitChars 10 (whole ++ frac) 0 : ℚ) * (10 : ℚ) ^ (0 - frac.length : Int) =
        Nat.ofDigitChars 10 digits 0 * (10 : ℚ) ^ e := by
  unfold positional
  split_ifs with hpad hinside
  · -- zeros behind the digits
    obtain ⟨zeros, rfl⟩ : ∃ zeros : Nat, e = zeros := Int.eq_ofNat_of_zero_le (by omega)
    have hcount : ((digits.length : Int) + zeros).toNat - digits.length = zeros := by omega
    rw [hcount]
    refine ⟨_, [], .plain (hd.append (digits_replicate_zero _)) (by simp [hne]), ?_⟩
    rw [List.append_nil, Nat.ofDigitChars_append, Nat.ofDigitChars_replicate_zero, zpow_natCast]
    push_cast
    rw [List.length_nil, Nat.cast_zero, sub_zero, zpow_zero, mul_one, mul_comm]
  · -- the point among the digits
    have hwhole : digits.take (digits.length + e).toNat ≠ [] := by
      simp only [ne_eq, List.take_eq_nil_iff, hne, or_false]
      omega
    refine ⟨_, _, .pointed (fun c h => hd c (List.mem_of_mem_take h)) hwhole
      (fun c h => hd c (List.mem_of_mem_drop h)), ?_⟩
    have hfrac : (0 - (digits.drop (digits.length + e).toNat).length : Int) = e := by
      rw [List.length_drop]
      omega
    rw [List.take_append_drop, hfrac]
  · -- the point and zeros before the digits
    have hfrac := (digits_replicate_zero (-(digits.length + e)).toNat).append hd
    refine ⟨['0'], List.replicate (-(digits.length + e)).toNat '0' ++ digits,
      .pointed (digits_replicate_zero 1) (by simp) hfrac, ?_⟩
    have hlen : (0 - (List.replicate (-(digits.length + e)).toNat '0' ++ digits).length : Int) = e := by
      rw [List.length_append, List.length_replicate]
      omega
    rw [hlen, ← List.append_assoc, Nat.ofDigitChars_append, Nat.ofDigitChars_append,
      Nat.ofDigitChars_replicate_zero]
    rfl

/-- The digits with their point after the first one, and the power of ten that this takes. -/
theorem exists_scientific (point : Int) :
    ∃ whole frac m p, plain.scientific digits point = m ++ p ∧ Mantissa whole frac m ∧
      Power (point - 1) p ∧ 'e' ∈ p ∧ whole ++ frac = digits ∧ whole.length = 1 := by
  obtain ⟨c, rest, rfl⟩ := List.exists_cons_of_ne_nil hne
  have hc : Numeral.Digits [c] := fun d h => hd d (by simp_all)
  have hrest : Numeral.Digits rest := fun d h => hd d (List.mem_cons_of_mem c h)
  have hp := power_toDigits (point - 1)
  rcases rest with _ | ⟨d, rest⟩
  · exact ⟨[c], [], [c], _, rfl, .plain hc (by simp), hp, List.mem_cons_self, rfl, rfl⟩
  · exact ⟨[c], d :: rest, [c] ++ '.' :: d :: rest, _, rfl, .pointed hc (by simp) hrest, hp,
      List.mem_cons_self, rfl, rfl⟩

end Digits

/-- **How a decimal is printed**: a mantissa and a power of ten that give its value, the power with
an exponent only if the first digit stands far from the point. -/
theorem exists_parts_decimal (d : Decimal) :
    ∃ whole frac m n p, plain.decimal d = m ++ p ∧ Mantissa whole frac m ∧ Power n p ∧
      (n = 0 ∨ n = d.leadingExp) ∧
      (Nat.ofDigitChars 10 (whole ++ frac) 0 : ℚ) * (10 : ℚ) ^ (n - frac.length) = d.value ∧
      ('e' ∈ p ↔ 21 ≤ d.leadingExp ∨ d.leadingExp ≤ -7) := by
  have hpoint : (d.digits.length + d.exp : Int) = d.leadingExp + 1 := by
    rw [Decimal.leadingExp]
    omega
  show ∃ whole frac m n p, (if -5 ≤ (d.digits.length + d.exp : Int) ∧ d.digits.length + d.exp ≤ 21 then
    positional d.digits (d.digits.length + d.exp)
      else plain.scientific d.digits (d.digits.length + d.exp)) = m ++ p ∧ _
  split_ifs with hrange
  · obtain ⟨whole, frac, hm, hvalue⟩ :=
      exists_mantissa_positional d.digits_isDigit d.digits_ne_nil d.exp
    refine ⟨whole, frac, _, 0, [], (List.append_nil _).symm, hm, .none, .inl rfl, ?_, ?_⟩
    · rw [hvalue, d.ofDigitChars_digits, Decimal.value]
    · simp only [List.not_mem_nil, false_iff]
      omega
  · obtain ⟨whole, frac, m, p, heq, hm, hp, he, hdigits, hwhole⟩ :=
      exists_scientific d.digits_isDigit d.digits_ne_nil (d.digits.length + d.exp)
    rw [hpoint, add_sub_cancel_right] at hp
    refine ⟨whole, frac, m, _, p, heq, hm, hp, .inr rfl, ?_, ?_⟩
    · have hlen : whole.length + frac.length = d.digits.length := by
        rw [← List.length_append, hdigits]
      have hexp : d.leadingExp - frac.length = d.exp := by omega
      rw [hdigits, d.ofDigitChars_digits, hexp, Decimal.value]
    · simp only [he, true_iff]
      omega

end NumberLayout

/-! ### Reading back -/

theorem Numeral.read_of_ofTrimmed? {t : Text} {n : Numeral} (h : ofTrimmed? t = some n) :
    Binary64.read t = n.toFloat := by
  have htrim : t.trim = t :=
    Text.trim_of_no_blank fun c hc => isBlank_of_isNumeralChar (spelled_of_ofTrimmed? h c hc)
  rw [Binary64.read, ofText?, htrim, h]

namespace Decimal

variable {d : Decimal}

/-- A decimal that is rounded to a positive finite number is neither very large nor very small. -/
theorem leadingExp_lt (h0 : nearestRat d.value ≠ 0) (hinf : nearestRat d.value ≠ infinityBits) :
    d.leadingExp.natAbs < Numeral.exponentCap := by
  have hd : d.coeff ≠ 0 := by
    intro hd
    rw [value, hd, Nat.cast_zero, zero_mul, nearestRat_zero] at h0
    exact h0 rfl
  obtain ⟨hl, hu⟩ := value_bounds hd
  have hsmall : d.leadingExp < 1025 := by
    by_contra hn
    refine hinf (nearestRat_of_large ?_)
    calc (2 : ℚ) ^ (1025 : Int) ≤ (2 : ℚ) ^ (3 * d.leadingExp) :=
          zpow_le_zpow_right₀ one_le_two (by omega)
      _ ≤ (10 : ℚ) ^ d.leadingExp := two_zpow_le_ten_zpow (by omega)
      _ ≤ d.value := hl
  have hlarge : -1075 ≤ d.leadingExp + 1 := by
    by_contra hn
    refine h0 (nearestRat_of_small ((zpow_pos (by norm_num) _).trans_le hl) ?_)
    calc d.value < (10 : ℚ) ^ (d.leadingExp + 1) := hu
      _ ≤ (2 : ℚ) ^ (3 * (d.leadingExp + 1)) := ten_zpow_le_two_zpow (by omega)
      _ ≤ (2 : ℚ) ^ (-1075 : Int) := zpow_le_zpow_right₀ one_le_two (by omega)
  rw [Numeral.exponentCap]
  omega

/-- **A printed decimal is read as the number it is rounded to.** -/
theorem read_decimal (h0 : nearestRat d.value ≠ 0) (hinf : nearestRat d.value ≠ infinityBits)
    (negative : Bool) :
    Binary64.read (if negative then '-' :: NumberLayout.plain.decimal d
      else NumberLayout.plain.decimal d) = signed negative (nearestRat d.value) := by
  obtain ⟨whole, frac, m, n, p, heq, hm, hp, hn, hvalue, -⟩ := NumberLayout.exists_parts_decimal d
  obtain ⟨e, he, hcap⟩ := hp.exponent?
  obtain rfl : e = n := by
    refine hcap ?_
    rcases hn with rfl | rfl
    · decide
    · exact leadingExp_lt h0 hinf
  have hdec := Numeral.decimal?_append negative hm hp
  rw [he, Option.map_some, ← heq] at hdec
  rw [Numeral.read_of_ofTrimmed? (Numeral.ofTrimmed?_of_decimal hdec), Numeral.toFloat,
    nearestDecimal_eq, hvalue]

end Decimal

section Write

variable {x : Float}

theorem write_of_finite (hx : x.isFinite = true) (h0 : magnitude x ≠ 0) :
    NumberLayout.plain.write x =
      if isNegative x then '-' :: NumberLayout.plain.decimal (.shortest (magnitude x))
      else NumberLayout.plain.decimal (.shortest (magnitude x)) := by
  have hmag : NumberLayout.plain.magnitude (magnitude x) =
      NumberLayout.plain.decimal (.shortest (magnitude x)) := by
    rw [NumberLayout.magnitude, if_neg h0, if_pos ((isFinite_iff_magnitude_lt x).mp hx)]
  have hne : (magnitude x != 0) = true := bne_iff_ne.mpr h0
  rw [NumberLayout.write, isNaN_of_isFinite hx, if_neg Bool.false_ne_true, hne, Bool.and_true, hmag]

theorem read_write_of_finite (hx : x.isFinite = true) (h0 : magnitude x ≠ 0) :
    Binary64.read (NumberLayout.plain.write x) = x := by
  have hlt := (isFinite_iff_magnitude_lt x).mp hx
  have hshort := Decimal.nearestRat_shortest hlt
  rw [write_of_finite hx h0, Decimal.read_decimal (hshort.trans_ne h0) (hshort.trans_ne hlt.ne),
    hshort, signed_magnitude]

theorem read_write_of_infinite (hx : magnitude x = infinityBits) :
    Binary64.read (NumberLayout.plain.write x) = x := by
  have hnan : x.isNaN = false := isNaN_eq_false_iff.mpr hx.le
  have hinf : NumberLayout.plain.magnitude infinityBits = "Infinity".toList := by decide
  have hne : (infinityBits != 0) = true := by decide
  have hread : ∀ negative : Bool, Binary64.read
      (if negative then '-' :: "Infinity".toList else "Infinity".toList) =
        signed negative infinityBits := by
    intro negative
    refine Numeral.read_of_ofTrimmed? (n := .infinity negative) ?_
    cases negative <;> decide
  have hsigned := signed_magnitude x
  rw [hx] at hsigned
  rw [NumberLayout.write, hnan, if_neg Bool.false_ne_true, hx, hne, Bool.and_true, hinf, hread,
    hsigned]

/-- Zero is printed without a sign, and either zero is equal to what is read. -/
theorem read_write_of_zero (hx : magnitude x = 0) :
    (Binary64.read (NumberLayout.plain.write x) == x) = true := by
  have hnan : x.isNaN = false := isNaN_eq_false_iff.mpr (hx.trans_le (Nat.zero_le _))
  have hwrite : NumberLayout.plain.write x = ['0'] := by
    rw [NumberLayout.write, hnan, if_neg Bool.false_ne_true, hx]
    simp [NumberLayout.magnitude]
  have hread : Binary64.read ['0'] = signed false 0 :=
    Numeral.read_of_ofTrimmed? (n := .decimal false 0 0) (by decide)
  have hsigned := signed_magnitude x
  rw [hx] at hsigned
  rw [hwrite, hread, ← hsigned]
  cases isNegative x <;> decide +kernel

/-- **What is printed is read back as an equal number.** -/
theorem read_write (hx : x.isNaN = false) :
    (Binary64.read (NumberLayout.plain.write x) == x) = true := by
  have hself : (x == x) = true := by
    rw [Float.beq_self_iff]
    simpa using hx
  by_cases h0 : magnitude x = 0
  · exact read_write_of_zero h0
  by_cases hf : x.isFinite = true
  · rwa [read_write_of_finite hf h0]
  · have hinf : magnitude x = infinityBits := by
      rw [isFinite_iff_magnitude_lt, Nat.not_lt] at hf
      exact le_antisymm (isNaN_eq_false_iff.mp hx) hf
    rwa [read_write_of_infinite hinf]

end Write

/-- **Printed numbers read back.** A finite number that is not zero is printed as a sign, if it is
negative, and a decimal with exactly the value of its shortest decimal, with a power of ten exactly
if the first digit stands at `10 ^ 21` or above or at `10 ^ -7` or below. So what is printed for a
number is read back as an equal number, numbers that are printed alike are equal, and what is printed
is number-like exactly if it is printed for a number. -/
theorem printed_numbers_read_back :
    (∀ x : Float, x.isFinite = true → magnitude x ≠ 0 →
      let d := Decimal.shortest (magnitude x)
      ∃ body, NumberLayout.plain.write x = (if isNegative x then ['-'] else []) ++ body ∧
        (∃ n, Numeral.decimal? false body = some n) ∧ nearestRat d.value = magnitude x ∧
        (∀ q, Numeral.Says body q ↔
          q = d.coeff * (10 : ℚ) ^ (d.leadingExp + 1 - d.digits.length)) ∧
        ('e' ∈ body ↔ 21 ≤ d.leadingExp ∨ d.leadingExp ≤ -7)) ∧
    (∀ x : Float, x.isNaN = false →
      (Binary64.read (NumberLayout.plain.write x) == x) = true) ∧
    (∀ x y : Float, x.isNaN = false → y.isNaN = false →
      NumberLayout.plain.write x = NumberLayout.plain.write y → (x == y) = true) ∧
    ∀ x : Float, (Value.text (NumberLayout.plain.write x) : Value Float).isNumberLike = !x.isNaN := by
  refine ⟨fun x hx h0 => ?_, fun x => read_write, fun x y hx hy h => ?_, fun x => ?_⟩
  · obtain ⟨whole, frac, m, n, p, heq, hm, hp, -, hvalue, he⟩ :=
      NumberLayout.exists_parts_decimal (.shortest (magnitude x))
    have hsays : Numeral.Says (m ++ p) (Decimal.shortest (magnitude x)).value :=
      hvalue ▸ .intro hm hp
    refine ⟨m ++ p, ?_, (Numeral.isDecimal_iff false).mp ⟨_, hsays⟩,
      Decimal.nearestRat_shortest ((isFinite_iff_magnitude_lt x).mp hx), ?_, ?_⟩
    · rw [write_of_finite hx h0, heq]
      split_ifs <;> rfl
    · have hexp : (Decimal.shortest (magnitude x)).leadingExp + 1 -
          (Decimal.shortest (magnitude x)).digits.length = (Decimal.shortest (magnitude x)).exp := by
        rw [Decimal.leadingExp]
        omega
      rw [hexp]
      exact fun q => ⟨fun hq => hq.unique hsays, fun hq => hq ▸ hsays⟩
    · rw [List.mem_append, ← he]
      exact or_iff_right hm.mark_not_mem
  · have hx' := read_write hx
    rw [h] at hx'
    exact PartialEquivBEq.trans (PartialEquivBEq.symm hx') (read_write hy)
  · show (!(Binary64.read (NumberLayout.plain.write x)).isNaN) = !x.isNaN
    congr 1
    rcases hx : x.isNaN with _ | _
    · have hnan := (Float.beq_iff_ne_nan_and_eq.mp (read_write hx)).1
      simpa using hnan
    · rw [NumberLayout.write, hx, if_pos rfl]
      rfl

/-- A negative number that is printed with a power of ten, and the two zeros, which are printed
alike. -/
theorem printed_numbers_read_back_negative :
    let x := signed true 0x3E80C6F7A0B5ED8D
    x.isFinite = true ∧ magnitude x ≠ 0 ∧ NumberLayout.plain.write x = "-1.25e-7".toList ∧
      (∃ body, NumberLayout.plain.write x = '-' :: body ∧
        (∀ q, Numeral.Says body q ↔ q = 125 * (10 : ℚ) ^ (-9 : Int)) ∧ 'e' ∈ body) ∧
      (Binary64.read "-1.25e-7".toList == x) = true ∧ (signed false 0 == signed true 0) = true := by
  intro x
  have hfin : x.isFinite = true := by decide +kernel
  have h0 : magnitude x ≠ 0 := by decide +kernel
  have hneg : isNegative x = true := by decide +kernel
  have hshort : Decimal.shortest (magnitude x) = ⟨125, -9⟩ := by decide +kernel
  have hwrite : NumberLayout.plain.write x = "-1.25e-7".toList := by decide +kernel
  obtain ⟨body, hbody, -, -, hsays, he⟩ := printed_numbers_read_back.1 x hfin h0
  rw [hshort] at hsays he
  rw [hneg, if_pos rfl] at hbody
  refine ⟨hfin, h0, hwrite, ⟨body, hbody, hsays, he.mpr (by decide)⟩, ?_, ?_⟩
  · rw [← hwrite]
    exact printed_numbers_read_back.2.1 x (isNaN_of_isFinite hfin)
  · exact printed_numbers_read_back.2.2.1 _ _ (by decide +kernel) (by decide +kernel)
      (by decide +kernel)

end LessonScript
