import LessonScript.Proofs.Patterns

/-! # Products and sums are rounded once

The product and the sum of two finite numbers without a sign are the exact ones, rounded
(`signed_mul`, `signed_add`). A mantissa is rounded by shifting it to the place of its last digit,
while two bits say of what is shifted out all that rounding needs (`Stands`). If rounding gives one
digit more than there is room for, the pattern is that of the next power of two
(`pattern_two_pow`), which is why a second shift rounds nothing (`toNat_pack_roundWithAccuracy`). -/

namespace LessonScript.Binary64

open Float.Model Float.Model.UnpackedFloat

/-! ### Shifting -/

/-- The mantissa and its two bits say of `num / den` what rounding to an integer needs. -/
structure Stands (em : ExtendedMantissa) (num den : Nat) : Prop where
  mantissa : em.mantissa = num / den
  roundBit : em.roundBit = true ↔ den ≤ 2 * (num % den)
  stickyBit : em.stickyBit = true ↔ 2 * (num % den) ≠ 0 ∧ 2 * (num % den) ≠ den

section Shift

variable {em : ExtendedMantissa} {num den : Nat}

theorem Stands.shiftRightOne (h : Stands em num den) (hden : 0 < den) :
    Stands em.shiftRightOne num (den * 2) := by
  have hmod : num % (den * 2) = num % den + den * (num / den % 2) := Nat.mod_mul
  have hlt := Nat.mod_lt num hden
  refine ⟨?_, ?_, ?_⟩
  · rw [ExtendedMantissa.shiftRightOne, h.mantissa, Nat.div_div_eq_div_mul]
  · simp only [ExtendedMantissa.shiftRightOne, h.mantissa, bne_iff_ne]
    rcases Nat.mod_two_eq_zero_or_one (num / den) with hb | hb <;> rw [hb] at hmod ⊢ <;> omega
  · simp only [ExtendedMantissa.shiftRightOne, Bool.or_eq_true, h.roundBit, h.stickyBit]
    rcases Nat.mod_two_eq_zero_or_one (num / den) with hb | hb <;> rw [hb] at hmod <;> omega

theorem stands_shiftRight (m s : Nat) :
    Stands (ExtendedMantissa.ofMantissaAndAccuracy m .exact >>> s) m (2 ^ s) := by
  induction s with
  | zero => exact ⟨(Nat.div_one m).symm, by simp [Nat.mod_one]; rfl, by simp [Nat.mod_one]; rfl⟩
  | succ s ih => exact ih.shiftRightOne (Nat.two_pow_pos s)

theorem Stands.roundedMantissa (h : Stands em num den) :
    em.roundedMantissa = roundHalfEven num den := by
  obtain ⟨m, roundBit, stickyBit⟩ := em
  obtain ⟨hm, hr, hs⟩ := h
  dsimp only at hm hr hs
  cases roundBit <;> cases stickyBit <;>
    simp only [Bool.false_eq_true, false_iff, true_iff] at hr hs <;>
    simp only [ExtendedMantissa.roundedMantissa, ExtendedMantissa.accuracy,
      Accuracy.roundToNearestEven, roundHalfEven, hm] <;> split_ifs <;> omega

end Shift

/-! ### Packing -/

/-- Without a sign, the exponent stands before the mantissa. -/
theorem toNat_packComponents (e : BitVec Format.binary64.exponentBits)
    (m : BitVec Format.binary64.mantissaBitsWithoutImplicit) :
    (packComponents Format.binary64 .positive e m).toNat = e.toNat * leadingBit + m.toNat := by
  have hsign : (Sign.positive.toBitVec ++ e).toNat = e.toNat := by
    rw [BitVec.toNat_append]
    exact Nat.zero_or _
  rw [packComponents, BitVec.toNat_append, hsign, ← Nat.shiftLeft_add_eq_or_of_lt m.isLt,
    Nat.shiftLeft_eq]
  rfl

/-- The pattern of `m · 2 ^ t`, infinity beyond the finite ones, where the mantissa is normalised or
has the least exponent. -/
def pattern (m : Nat) (t : Int) : Nat := min infinityBits ((t + 1074).toNat * leadingBit + m)

theorem pattern_of_lt {m : Nat} {t : Int} (h : pattern m t < infinityBits) :
    pattern m t = (t + 1074).toNat * leadingBit + m :=
  Nat.min_eq_right (le_of_not_ge fun hle => h.ne (Nat.min_eq_left hle))

/-- A mantissa and its place as rounding gives them: normalised or at the least place, perhaps with
one digit too many. -/
structure Placed (m : Nat) (t : Int) : Prop where
  least : -1074 ≤ t
  le : m ≤ 2 ^ 53
  normal : t = -1074 ∨ 2 ^ 52 ≤ m

/-- One digit too many makes the next power of two. -/
theorem place_two_pow {t : Int} (ht : -1074 ≤ t) :
    (t + 1074).toNat * leadingBit + 2 ^ 53 = (t + 1 + 1074).toNat * leadingBit + 2 ^ 52 := by
  simp only [leadingBit]
  omega

theorem pattern_two_pow {t : Int} (ht : -1074 ≤ t) :
    pattern (2 ^ 53) t = pattern (2 ^ 52) (t + 1) := by
  rw [pattern, pattern, place_two_pow ht]

/-- The parts of a pattern are a mantissa at its place, without a digit too many. -/
theorem placed_decode (b : Nat) :
    Placed (decode b).1 (decode b).2 ∧ (decode b).1 < 2 ^ 53 ∧
      ((decode b).2 + 1074).toNat * leadingBit + (decode b).1 = b := by
  unfold decode
  split_ifs with hlow
  · simp only [leadingBit] at hlow ⊢
    exact ⟨⟨le_rfl, by omega, .inl rfl⟩, by omega, by omega⟩
  · simp only [leadingBit] at hlow ⊢
    exact ⟨⟨by omega, by omega, .inr (by omega)⟩, by omega, by omega⟩

/-- A mantissa at its place is packed to its pattern. -/
theorem Placed.toNat_pack {m : Nat} {t : Int} (h : Placed m t) (hm : 0 < m) (hlt : m < 2 ^ 53) :
    (UnpackedFloat.pack Format.binary64 (.finite .positive m t hm)).toNat = pattern m t := by
  obtain ⟨ht, -, hnormal⟩ := h
  have hexp : t + (Format.binary64.exponentBias : Int) +
      (Format.binary64.mantissaBitsWithoutImplicit : Int) = t + 1075 := add_assoc t 1023 52
  unfold UnpackedFloat.pack
  dsimp only
  split_ifs with hlarge hfull <;> rw [hexp] at hlarge
  · change 2048 ≤ _ at hlarge
    rw [show (packedInfinity Format.binary64 .positive).toNat = infinityBits from rfl, pattern,
      Nat.min_eq_left]
    simp only [infinityBits, leadingBit]
    omega
  · change ¬ 2048 ≤ _ at hlarge
    have hhigh : 2 ^ 52 ≤ m := (Nat.le_log2 hm.ne').mp (Nat.le_of_succ_le_succ hfull.ge)
    -- the digit that a normalised mantissa begins with is not stored
    rw [hexp, toNat_packComponents, BitVec.toNat_ofNat, BitVec.toNat_ofNat]
    change (t + 1075).toNat % 2 ^ 11 * _ + m % 2 ^ 52 = _
    simp only [pattern, infinityBits, leadingBit]
    omega
  · have hlow : m < 2 ^ 52 := by
      by_contra h
      exact hfull (congrArg (· + 1) ((Nat.log2_eq_iff hm.ne').mpr ⟨Nat.le_of_not_lt h, hlt⟩))
    obtain rfl : t = -1074 := by omega
    rw [toNat_packComponents, BitVec.toNat_ofNat]
    change 0 * _ + m % 2 ^ 52 = _
    simp only [pattern, infinityBits, leadingBit]
    omega

/-! ### Rounding a mantissa -/

theorem targetExponent_eq (m : Nat) (e : Int) :
    Format.binary64.targetExponent (totalExponent m e) = max ((m.log2 : Int) + e - 52) (-1074) := by
  simp only [Format.targetExponent, totalExponent, Format.mantissaBits, Format.minExponent]
  norm_num
  omega

/-- A mantissa that has not too many digits stays at its place. -/
theorem Placed.place_eq {m : Nat} {t : Int} (h : Placed m t) (hlt : m < 2 ^ 53) :
    max ((m.log2 : Int) + t - 52) (-1074) = t := by
  obtain ⟨ht, -, hnormal⟩ := h
  rcases m.eq_zero_or_pos with rfl | hm
  · rw [show Nat.log2 0 = 0 from rfl]
    omega
  rcases hnormal with rfl | hle
  · have := (Nat.log2_lt (k := 53) hm.ne').mpr hlt
    omega
  · rw [(Nat.log2_eq_iff hm.ne').mpr ⟨hle, hlt⟩]
    omega

theorem roundHalfEven_le_of_lt {num den b : Nat} (h : num < b * den) :
    roundHalfEven num den ≤ b := by
  have hlt := Nat.div_lt_of_lt_mul (Nat.mul_comm b den ▸ h)
  rw [roundHalfEven]
  split_ifs <;> omega

theorem le_roundHalfEven_of_le {num den b : Nat} (hden : 0 < den) (h : b * den ≤ num) :
    b ≤ roundHalfEven num den := by
  have hle := (Nat.le_div_iff_mul_le hden).mpr h
  rw [roundHalfEven]
  split_ifs <;> omega

section Mantissa

variable {m : Nat} {e t : Int} (hm : 0 < m) (ht : max ((m.log2 : Int) + e - 52) (-1074) = t)
  (he : e ≤ t)
include hm ht he

theorem nearestRat_mul_zpow :
    nearestRat (m * (2 : ℚ) ^ e) = pattern (roundHalfEven m (2 ^ (t - e).toNat)) t := by
  have hpos : (0 : ℚ) < m * (2 : ℚ) ^ e := by positivity
  have hexp :
      roundingExponent ((m : ℚ) * (2 : ℚ) ^ e).num.toNat ((m : ℚ) * (2 : ℚ) ^ e).den = t := by
    rw [roundingExponent_num_den hpos, log_mul_zpow hm, ht]
  have hround : roundHalfEven (scaledNum 2 ((m : ℚ) * (2 : ℚ) ^ e).num.toNat t)
      (scaledDen 2 ((m : ℚ) * (2 : ℚ) ^ e).den t) = roundHalfEven m (2 ^ (t - e).toNat) := by
    refine roundHalfEven_congr (scaledDen_pos two_pos (Rat.den_pos _) t) (Nat.two_pow_pos _) ?_
    rw [scaled_div two_pos, num_div_den_of_nonneg hpos.le, Nat.cast_pow, Nat.cast_ofNat,
      ← zpow_natCast, Int.toNat_of_nonneg (by omega), zpow_sub₀ two_ne_zero]
    field_simp
  rw [nearestRat, nearest, if_neg (num_toNat_pos hpos).ne']
  dsimp only
  rw [hexp, hround, pattern]

theorem placed_roundHalfEven : Placed (roundHalfEven m (2 ^ (t - e).toNat)) t := by
  refine ⟨by omega, roundHalfEven_le_of_lt (Nat.lt_log2_self.trans_le ?_),
    or_iff_not_imp_left.mpr fun hne => le_roundHalfEven_of_le (Nat.two_pow_pos _) ?_⟩
  · rw [← Nat.pow_add]
    exact Nat.pow_le_pow_right two_pos (by omega)
  · refine Nat.le_trans ?_ (Nat.log2_self_le hm.ne')
    rw [← Nat.pow_add]
    exact Nat.pow_le_pow_right two_pos (by omega)

/-- **A mantissa is rounded once**: that rounding may give one digit more changes nothing. -/
theorem toNat_pack_roundWithAccuracy :
    (UnpackedFloat.pack Format.binary64
      (roundWithAccuracy Format.binary64 .positive m e .exact)).toNat =
        nearestRat (m * (2 : ℚ) ^ e) := by
  have hplaced := placed_roundHalfEven hm ht he
  rw [nearestRat_mul_zpow hm ht he]
  unfold roundWithAccuracy shiftToTargetExponent shiftToExponent
  dsimp only
  rw [targetExponent_eq, ht, (stands_shiftRight m _).roundedMantissa,
    show e + ((t - e).toNat : Int) = t by omega]
  generalize roundHalfEven m (2 ^ (t - e).toNat) = r at hplaced ⊢
  rw [targetExponent_eq]
  rcases hplaced.le.lt_or_eq with hlt | rfl
  · rw [hplaced.place_eq hlt, sub_self, Int.toNat_zero, Nat.cast_zero, add_zero]
    split_ifs with hr
    · obtain rfl : r = 0 := hr
      obtain rfl : t = -1074 := hplaced.normal.resolve_right (by decide)
      rfl
    · exact hplaced.toNat_pack (Nat.pos_of_ne_zero hr) hlt
  · have hplace : max (((2 ^ 53).log2 : Int) + t - 52) (-1074) = t + 1 := by
      rw [Nat.log2_two_pow]
      omega
    have hnext : Placed (2 ^ 52) (t + 1) := ⟨by omega, by decide, .inr le_rfl⟩
    rw [hplace, add_sub_cancel_left, Int.toNat_one, Nat.cast_one, dif_neg (by decide),
      pattern_two_pow (by omega)]
    exact hnext.toNat_pack (by decide) (by decide)

end Mantissa

theorem log2_mul_two_pow {n : Nat} (hn : 0 < n) (k : Nat) : (n * 2 ^ k).log2 = n.log2 + k := by
  refine (Nat.log2_eq_iff (by positivity)).mpr ⟨?_, ?_⟩
  · rw [Nat.pow_add]
    exact Nat.mul_le_mul_right _ (Nat.log2_self_le hn.ne')
  · rw [Nat.add_right_comm, Nat.pow_add]
    exact Nat.mul_lt_mul_of_pos_right Nat.lt_log2_self (Nat.two_pow_pos k)

/-- The exponent of the mantissa is lowered first if it is too large. -/
theorem toNat_pack_round {m : Nat} (hm : 0 < m) (e : Int) :
    (UnpackedFloat.pack Format.binary64 (UnpackedFloat.round Format.binary64 .positive m e)).toNat =
      nearestRat (m * (2 : ℚ) ^ e) := by
  unfold UnpackedFloat.round decreaseExponent
  dsimp only
  rw [targetExponent_eq, Nat.shiftLeft_eq]
  generalize hk : (e - max ((m.log2 : Int) + e - 52) (-1074)).toNat = k
  have hlog := log2_mul_two_pow hm k
  rw [toNat_pack_roundWithAccuracy (by positivity) rfl (by omega)]
  congr 1
  rw [zpow_sub₀ two_ne_zero, zpow_natCast]
  push_cast
  field_simp

/-! ### Patterns of what is rounded already -/

namespace Placed

variable {m : Nat} {t : Int} (h : Placed m t)
include h

theorem decode_eq (hlt : m < 2 ^ 53) :
    decode ((t + 1074).toNat * leadingBit + m) = (m, t) := by
  obtain ⟨ht, -, hnormal⟩ := h
  by_cases hlow : (t + 1074).toNat * leadingBit + m < leadingBit
  · rw [decode, if_pos hlow]
    simp only [leadingBit, Prod.mk.injEq] at hlow ⊢
    omega
  · rw [decode, if_neg hlow]
    simp only [leadingBit, Prod.mk.injEq] at hlow ⊢
    omega

/-- A mantissa at its place is the number of its pattern. -/
theorem value_eq : value ((t + 1074).toNat * leadingBit + m) = m * (2 : ℚ) ^ t := by
  rcases h.le.lt_or_eq with hlt | rfl
  · rw [value, h.decode_eq hlt]
  · have hnext : Placed (2 ^ 52) (t + 1) := ⟨by have := h.least; omega, by decide, .inr le_rfl⟩
    rw [place_two_pow h.least, value, hnext.decode_eq (by decide), zpow_add_one₀ two_ne_zero]
    push_cast
    ring

theorem value_pattern (hfin : pattern m t < infinityBits) :
    value (pattern m t) = m * (2 : ℚ) ^ t := by
  rw [pattern_of_lt hfin, h.value_eq]

theorem nearestRat_eq : nearestRat (m * (2 : ℚ) ^ t) = pattern m t := by
  rcases m.eq_zero_or_pos with rfl | hm
  · obtain rfl : t = -1074 := h.normal.resolve_right (by decide)
    rw [Nat.cast_zero, zero_mul, nearestRat_zero]
    rfl
  rcases h.le.lt_or_eq with hlt | rfl
  · rw [nearestRat_mul_zpow hm (h.place_eq hlt) le_rfl, sub_self, Int.toNat_zero, pow_zero,
      roundHalfEven_natCast (n := m) one_pos (by rw [Nat.cast_one, div_one])]
  · have ht := h.least
    rw [pattern_two_pow ht, nearestRat_mul_zpow (t := t + 1) (by decide)
      (by rw [Nat.log2_two_pow]; omega) (by omega), add_sub_cancel_left]
    rfl

end Placed

/-! ### Products and sums -/

theorem nearestRat_le (q : ℚ) : nearestRat q ≤ infinityBits := nearest_le _ _

theorem eq_signed {x : Float} {n : Nat} (h : x.toBits.toNat = n) (hle : n ≤ infinityBits) :
    x = signed false n := by
  have hlt : n < signBit := hle.trans_lt (by decide)
  have hsign : isNegative x = false := decide_eq_false (h ▸ Nat.not_le.mpr hlt)
  have hmag : magnitude x = n := by rw [magnitude, h, Nat.mod_eq_of_lt hlt]
  rw [← hmag, ← hsign, signed_magnitude]

/-- A pattern is unpacked to the parts that it is decoded to. -/
theorem unpack_of_toNat {b : BitVec Format.binary64.numBits} {n : Nat} (hb : b.toNat = n)
    (hpos : 0 < n) (h : n < infinityBits) :
    UnpackedFloat.unpack Format.binary64 b =
      .finite .positive (decode n).1 (decode n).2 (decode_spec hpos).1 := by
  subst hb
  have hinf : unpackExponent b ≠ (-1#_) := by
    rw [Ne, unpackExponent_eq_iff]
    simp only [infinityBits, signBit] at h ⊢
    omega
  have hexp : (unpackExponent b).toNat = b.toNat / leadingBit := by
    rw [toNat_unpackExponent]
    simp only [infinityBits, leadingBit] at h ⊢
    omega
  have hzero : unpackExponent b = 0#_ ↔ b.toNat < leadingBit := by
    rw [← BitVec.toNat_inj, hexp]
    exact Nat.div_eq_zero_iff_lt (by decide)
  unfold UnpackedFloat.unpack
  dsimp only
  rw [if_neg hinf, unpackSign_of_le h.le]
  split_ifs with hlow hm
  · rw [hzero] at hlow
    rw [← BitVec.toNat_inj, toNat_unpackMantissa, Nat.mod_eq_of_lt hlow] at hm
    exact absurd hm hpos.ne'
  · have hlow' := hzero.mp hlow
    simp only [UnpackedFloat.finite.injEq, decode, if_pos hlow', toNat_unpackMantissa, hlow,
      Nat.mod_eq_of_lt hlow', true_and]
    rfl
  · simp only [UnpackedFloat.finite.injEq, decode, if_neg (mt hzero.mpr hlow), hexp, true_and]
    refine ⟨?_, rfl⟩
    rw [BitVec.toNat_append, ← Nat.shiftLeft_add_eq_or_of_lt (unpackMantissa b).isLt,
      toNat_unpackMantissa]
    rfl

theorem normalize_natCast {m : Nat} (hm : 0 < m) (e : Int) (zeroSign : Sign) :
    normalize Format.binary64 m e zeroSign = UnpackedFloat.round Format.binary64 .positive m e := by
  have hgt : compare (m : Int) 0 = .gt := Int.compare_eq_gt.mpr (by omega)
  rw [UnpackedFloat.normalize, hgt]
  rfl

theorem toNat_pack_add {m m' : Nat} (hm : 0 < m) (hm' : 0 < m') (e e' : Int) :
    (UnpackedFloat.pack Format.binary64 (UnpackedFloat.add Format.binary64
      (.finite .positive m e hm) (.finite .positive m' e' hm'))).toNat =
        nearestRat (m * (2 : ℚ) ^ e + m' * (2 : ℚ) ^ e') := by
  -- both mantissas are put at the smaller exponent
  have hsum : UnpackedFloat.add Format.binary64 (.finite .positive m e hm)
      (.finite .positive m' e' hm') = normalize Format.binary64
        (m * 2 ^ (e - min e e').toNat + m' * 2 ^ (e' - min e e').toNat : Nat) (min e e')
        .positive := by
    simp only [UnpackedFloat.add, decreaseExponent, Nat.shiftLeft_eq, Sign.apply, Nat.cast_add]
  have hlower : ∀ (m : Nat) {e f : Int}, f ≤ e →
      (m : ℚ) * 2 ^ (e - f).toNat * (2 : ℚ) ^ f = m * (2 : ℚ) ^ e := fun m e f h => by
    rw [← zpow_natCast, Int.toNat_of_nonneg (sub_nonneg.mpr h), mul_assoc,
      ← zpow_add₀ two_ne_zero, sub_add_cancel]
  rw [hsum, normalize_natCast (by positivity), toNat_pack_round (by positivity)]
  push_cast
  rw [add_mul, hlower m (min_le_left e e'), hlower m' (min_le_right e e')]

section Operations

variable {a b : Nat}

theorem unpack_signed (hpos : 0 < a) (ha : a < infinityBits) :
    (signed false a).toModel.unpack =
      .finite .positive (decode a).1 (decode a).2 (decode_spec hpos).1 :=
  unpack_of_toNat (toNat_toBits_signed false ha.le) hpos ha

theorem unpack_signed_zero : (signed false 0).toModel.unpack = .zero .positive := rfl

theorem unpack_signed_infinity :
    (signed false infinityBits).toModel.unpack = .infinity .positive := rfl

theorem toNat_pack_unpack (ha : a ≤ infinityBits) :
    (UnpackedFloat.pack Format.binary64 (signed false a).toModel.unpack).toNat = a := by
  have hbits := toNat_toBits_signed false ha
  have hnan : @isNaNBits Format.binary64 (signed false a).toModel.toBits.toBitVec = false := by
    rw [Bool.eq_false_iff, Ne, isNaNBits_iff]
    exact fun h => Nat.not_le_of_lt (h.trans_le (Nat.mod_le _ _)) (hbits.trans_le ha)
  have hpack := @pack_unpack Format.binary64 (signed false a).toModel.toBits.toBitVec (by decide)
  rw [hnan, if_neg Bool.false_ne_true] at hpack
  exact (congrArg BitVec.toNat hpack).trans hbits

theorem toNat_toBits_mul (x y : Float) :
    (x * y).toBits.toNat = (UnpackedFloat.pack Format.binary64
      (UnpackedFloat.mul Format.binary64 x.toModel.unpack y.toModel.unpack)).toNat := rfl

theorem toNat_toBits_add (x y : Float) :
    (x + y).toBits.toNat = (UnpackedFloat.pack Format.binary64
      (UnpackedFloat.add Format.binary64 x.toModel.unpack y.toModel.unpack)).toNat := rfl

theorem log2_le_log2 {m n : Nat} (hm : 0 < m) (h : m ≤ n) : m.log2 ≤ n.log2 :=
  (Nat.le_log2 (hm.trans_le h).ne').mpr ((Nat.log2_self_le hm.ne').trans h)

/-- **A product is the exact one, rounded.** -/
theorem signed_mul (ha : a < infinityBits) (hb : b < infinityBits) :
    signed false a * signed false b = signed false (nearestRat (value a * value b)) := by
  refine eq_signed ?_ (nearestRat_le _)
  rw [toNat_toBits_mul]
  rcases a.eq_zero_or_pos with rfl | hapos
  · rw [value_zero, zero_mul, nearestRat_zero, unpack_signed_zero]
    rcases b.eq_zero_or_pos with rfl | hbpos
    · rfl
    · rw [unpack_signed hbpos hb]
      rfl
  rcases b.eq_zero_or_pos with rfl | hbpos
  · rw [value_zero, mul_zero, nearestRat_zero, unpack_signed_zero, unpack_signed hapos ha]
    rfl
  -- a product of mantissas has a mantissa's digits, unless both exponents are the least
  have hma := (decode_spec hapos).1
  have hmb := (decode_spec hbpos).1
  have hloga := log2_le_log2 hma (Nat.le_mul_of_pos_right _ hmb)
  have hlogb := log2_le_log2 hmb (Nat.le_mul_of_pos_left _ hma)
  have hanormal := (placed_decode a).1.normal.imp_right (Nat.le_log2 hma.ne').mpr
  have hbnormal := (placed_decode b).1.normal.imp_right (Nat.le_log2 hmb.ne').mpr
  rw [unpack_signed hapos ha, unpack_signed hbpos hb]
  refine (toNat_pack_roundWithAccuracy (Nat.mul_pos hma hmb) rfl (by omega)).trans ?_
  rw [value, value, zpow_add₀ two_ne_zero]
  congr 1
  push_cast
  ring

/-- **A sum is the exact one, rounded.** -/
theorem signed_add (ha : a < infinityBits) (hb : b < infinityBits) :
    signed false a + signed false b = signed false (nearestRat (value a + value b)) := by
  refine eq_signed ?_ (nearestRat_le _)
  rw [toNat_toBits_add]
  rcases a.eq_zero_or_pos with rfl | hapos
  · rw [value_zero, zero_add, nearestRat_value hb, unpack_signed_zero]
    refine Eq.trans ?_ (toNat_pack_unpack hb.le)
    rcases b.eq_zero_or_pos with rfl | hbpos
    · rfl
    · rw [unpack_signed hbpos hb]
      rfl
  rcases b.eq_zero_or_pos with rfl | hbpos
  · rw [value_zero, add_zero, nearestRat_value ha]
    refine Eq.trans ?_ (toNat_pack_unpack ha.le)
    rw [unpack_signed_zero, unpack_signed hapos ha]
    rfl
  rw [unpack_signed hapos ha, unpack_signed hbpos hb]
  exact toNat_pack_add _ _ _ _

theorem infinity_mul (hpos : 0 < b) (hb : b < infinityBits) :
    signed false infinityBits * signed false b = signed false infinityBits := by
  refine eq_signed ?_ le_rfl
  rw [toNat_toBits_mul, unpack_signed_infinity, unpack_signed hpos hb]
  rfl

theorem infinity_add (hb : b < infinityBits) :
    signed false infinityBits + signed false b = signed false infinityBits := by
  refine eq_signed ?_ le_rfl
  rw [toNat_toBits_add, unpack_signed_infinity]
  rcases b.eq_zero_or_pos with rfl | hbpos
  · rfl
  · rw [unpack_signed hbpos hb]
    rfl

end Operations

end LessonScript.Binary64
