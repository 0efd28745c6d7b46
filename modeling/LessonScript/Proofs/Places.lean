import LessonScript.Proofs.Rounded

/-! # Rounding natural numbers

A natural number that is too long is rounded to fifty-three binary digits, the last one at its
*last place*. What is less than half of the last place makes no difference to such digits
(`nearestRat_add_small`), so a base of the form `2 ^ k` and a digit can be put after a number by one
rounding as long as it is short (`push_small`), and after that nothing but zeros is put after it
(`push_large`).

A number with zeros in place of its rest (`Lost`) is rounded like the number itself, except where it
is a tie that goes down (`TiesDown`): there the rest would have made the number go up
(`Lost.nearestRat_eq`, `Lost.nearestRat_eq_succ`). -/

namespace LessonScript.Binary64

/-! ### Rounding a natural number -/

/-- The power of two at which the last of fifty-three binary digits stands. -/
def lastPlace (n : Nat) : Nat := n.log2 - 52

/-- The digits to which a number is rounded, as the number that they are by themselves. -/
def leadingDigits (n : Nat) : Nat := roundHalfEven n (2 ^ lastPlace n)

theorem nearestRat_natCast (n : Nat) : nearestRat n = nearest n 1 := by
  rw [nearest_eq one_pos, Nat.cast_one, div_one]

theorem ofInt_natCast (n : Nat) : ofInt n = signed false (nearestRat n) := by
  rw [ofInt, decide_eq_false (by omega), Int.natAbs_natCast, nearestRat_natCast]

theorem magnitude_ofInt (n : Nat) : magnitude (ofInt n) = nearestRat n := by
  rw [ofInt_natCast, magnitude_signed _ (nearestRat_le _)]

section Large

variable {n : Nat} (h : 2 ^ 52 ≤ n)
include h

theorem log2_eq_lastPlace : n.log2 = lastPlace n + 52 := by
  have := (Nat.le_log2 (by omega)).mpr h
  rw [lastPlace]
  omega

theorem lastPlace_le_iff : lastPlace n ≤ 971 ↔ n < 2 ^ 1024 := by
  have hlog := log2_eq_lastPlace h
  rw [← Nat.log2_lt (by omega)]
  omega

theorem nearestRat_large : nearestRat n = pattern (leadingDigits n) (lastPlace n) := by
  have hlog := log2_eq_lastPlace h
  have := nearestRat_mul_zpow (m := n) (e := 0) (t := lastPlace n) (by omega) (by omega) (by omega)
  rw [zpow_zero, mul_one, sub_zero, Int.toNat_natCast] at this
  exact this

/-- Cut off at its last place, a number has fifty-three digits. -/
theorem div_lastPlace_bounds : 2 ^ 52 ≤ n / 2 ^ lastPlace n ∧ n / 2 ^ lastPlace n < 2 ^ 53 := by
  have hlog := log2_eq_lastPlace h
  have hpos := Nat.two_pow_pos (lastPlace n)
  rw [Nat.le_div_iff_mul_le hpos, Nat.div_lt_iff_lt_mul hpos, ← Nat.pow_add, ← Nat.pow_add]
  constructor
  · rw [Nat.add_comm, ← hlog]
    exact Nat.log2_self_le (by omega)
  · rw [show 53 + lastPlace n = n.log2 + 1 by omega]
    exact Nat.lt_log2_self

theorem leadingDigits_bounds : 2 ^ 52 ≤ leadingDigits n ∧ leadingDigits n ≤ 2 ^ 53 := by
  obtain ⟨hl, hu⟩ := div_lastPlace_bounds h
  rw [leadingDigits, roundHalfEven]
  split_ifs <;> omega

theorem lastPlace_mul_two_pow (k : Nat) : lastPlace (n * 2 ^ k) = lastPlace n + k := by
  have hlog := log2_eq_lastPlace h
  rw [lastPlace, log2_mul_two_pow (by omega), hlog]
  omega

theorem leadingDigits_mul_two_pow (k : Nat) : leadingDigits (n * 2 ^ k) = leadingDigits n := by
  rw [leadingDigits, lastPlace_mul_two_pow h, Nat.pow_add,
    roundHalfEven_mul _ _ (Nat.two_pow_pos k), leadingDigits]

end Large

theorem lastPlace_of_div {n t : Nat} (hl : 2 ^ 52 ≤ n / 2 ^ t) (hu : n / 2 ^ t < 2 ^ 53) :
    lastPlace n = t := by
  have hpos := Nat.two_pow_pos t
  rw [Nat.le_div_iff_mul_le hpos, ← Nat.pow_add] at hl
  rw [Nat.div_lt_iff_lt_mul hpos, ← Nat.pow_add] at hu
  have hlog : n.log2 = 52 + t :=
    (Nat.log2_eq_iff ((Nat.two_pow_pos _).trans_le hl).ne').mpr ⟨hl, by rwa [Nat.add_right_comm]⟩
  rw [lastPlace, hlog, Nat.add_sub_cancel_left]

theorem nearestRat_add_small_of_lt {m t d : Nat} (hl : 2 ^ 52 ≤ m) (hu : m < 2 ^ 53)
    (hd : 2 * d < 2 ^ t) : nearestRat (m * 2 ^ t + d : Nat) = pattern m t := by
  have hdiv : (m * 2 ^ t + d) / 2 ^ t = m := by
    rw [Nat.mul_comm, Nat.mul_add_div (Nat.two_pow_pos t), Nat.div_eq_of_lt (by omega),
      Nat.add_zero]
  have hmod : (m * 2 ^ t + d) % 2 ^ t = d := by
    rw [Nat.mul_comm, Nat.mul_add_mod, Nat.mod_eq_of_lt (by omega)]
  have hlarge : 2 ^ 52 ≤ m * 2 ^ t + d :=
    hl.trans ((Nat.le_mul_of_pos_right m (Nat.two_pow_pos t)).trans (Nat.le_add_right _ _))
  have hplace : lastPlace (m * 2 ^ t + d) = t :=
    lastPlace_of_div (hl.trans_eq hdiv.symm) (hdiv.trans_lt hu)
  have hdigits : leadingDigits (m * 2 ^ t + d) = m := by
    rw [leadingDigits, hplace, roundHalfEven, hdiv, hmod, if_neg (by omega)]
  rw [nearestRat_large hlarge, hplace, hdigits]

/-- **What is less than half of the last place makes no difference.** -/
theorem nearestRat_add_small {m t d : Nat} (hl : 2 ^ 52 ≤ m) (hu : m ≤ 2 ^ 53)
    (hd : 2 * d < 2 ^ t) : nearestRat (m * 2 ^ t + d : Nat) = pattern m t := by
  rcases hu.lt_or_eq with hlt | rfl
  · exact nearestRat_add_small_of_lt hl hlt hd
  · have hsplit : 2 ^ 53 * 2 ^ t + d = 2 ^ 52 * 2 ^ (t + 1) + d := by rw [Nat.pow_succ]; omega
    rw [hsplit, nearestRat_add_small_of_lt le_rfl (by decide) (by rw [Nat.pow_succ]; omega),
      pattern_two_pow (by omega), Nat.cast_add_one]

/-! ### Numbers without rounding -/

theorem pattern_le (m : Nat) (t : Int) : pattern m t ≤ infinityBits := Nat.min_le_left _ _

theorem pattern_mono (m : Nat) {t t' : Int} (h : t ≤ t') : pattern m t ≤ pattern m t' := by
  have hplace := Nat.mul_le_mul_right leadingBit (Int.toNat_le_toNat (add_le_add_left h 1074))
  exact min_le_min le_rfl (Nat.add_le_add_right hplace m)

theorem pattern_succ {m : Nat} {t : Int} (hfin : pattern m t < infinityBits) :
    pattern (m + 1) t = pattern m t + 1 := by
  rw [pattern, min_lt_iff, or_iff_right (lt_irrefl _)] at hfin
  rw [pattern, pattern, Nat.min_eq_right hfin.le, Nat.min_eq_right (by omega), Nat.add_assoc]

theorem pattern_eq_infinityBits {m : Nat} {t : Int} (hl : 2 ^ 52 ≤ m) (ht : 971 < t) :
    pattern m t = infinityBits := by
  refine Nat.min_eq_left ?_
  simp only [infinityBits, leadingBit]
  omega

theorem pattern_lt_infinityBits_iff {m : Nat} {t : Int} (hl : 2 ^ 52 ≤ m) (hu : m < 2 ^ 53)
    (ht : -1074 ≤ t) : pattern m t < infinityBits ↔ t ≤ 971 := by
  rw [pattern, min_lt_iff, or_iff_right (lt_irrefl _)]
  simp only [infinityBits, leadingBit]
  omega

/-- A number of at most fifty-three binary digits, with zeros behind them, is not rounded. -/
theorem value_nearestRat_of_lt {n k : Nat} (hn : n < 2 ^ 53) (hk : k ≤ 970) :
    nearestRat (n * 2 ^ k) < infinityBits ∧ value (nearestRat (n * 2 ^ k)) = n * 2 ^ k := by
  rcases n.eq_zero_or_pos with rfl | hpos
  · rw [Nat.cast_zero, zero_mul, nearestRat_zero]
    exact ⟨by decide, value_zero⟩
  have hlog : n.log2 < 53 := (Nat.log2_lt hpos.ne').mpr hn
  have hshift : (n * 2 ^ (52 - n.log2)).log2 = 52 := by
    rw [log2_mul_two_pow hpos]
    omega
  obtain ⟨hl, hu⟩ := (Nat.log2_eq_iff (by positivity)).mp hshift
  have hq : (n * 2 ^ k : ℚ) =
      (n * 2 ^ (52 - n.log2) : Nat) * (2 : ℚ) ^ ((k : Int) - (52 - n.log2 : Nat)) := by
    rw [zpow_sub₀ two_ne_zero, zpow_natCast, zpow_natCast]
    push_cast
    field_simp
  have hfin := (pattern_lt_infinityBits_iff hl hu
    (t := (k : Int) - (52 - n.log2 : Nat)) (by omega)).mpr (by omega)
  have hplaced : Placed (n * 2 ^ (52 - n.log2)) ((k : Int) - (52 - n.log2 : Nat)) :=
    ⟨by omega, hu.le, .inr hl⟩
  rw [hq, hplaced.nearestRat_eq]
  exact ⟨hfin, hplaced.value_pattern hfin⟩

theorem value_nearestRat_natCast {n : Nat} (hn : n < 2 ^ 53) :
    nearestRat n < infinityBits ∧ value (nearestRat n) = n := by
  have := value_nearestRat_of_lt hn (k := 0) (by omega)
  rwa [pow_zero, mul_one] at this

theorem value_nearestRat_two_pow {k : Nat} (hk : k ≤ 970) :
    nearestRat (2 ^ k) < infinityBits ∧ value (nearestRat (2 ^ k)) = 2 ^ k := by
  have h := value_nearestRat_of_lt (n := 1) (by decide) hk
  rwa [Nat.cast_one, one_mul] at h

theorem ofInt_two_pow (k : Nat) : ofInt (2 ^ k : Nat) = signed false (nearestRat (2 ^ k)) := by
  rw [ofInt_natCast, Nat.cast_pow, Nat.cast_ofNat]

/-! ### Taking in a digit -/

section Push

variable {m t k d : Nat} (hl : 2 ^ 52 ≤ m) (hu : m ≤ 2 ^ 53)
include hl hu

theorem pattern_mul (hk : k ≤ 970) :
    signed false (pattern m t) * ofInt (2 ^ k : Nat) = signed false (pattern m (t + k : Nat)) := by
  obtain ⟨hb, hvb⟩ := value_nearestRat_two_pow hk
  have hplaced : Placed m t := ⟨by omega, hu, .inr hl⟩
  have hnext : Placed m (t + k : Nat) := ⟨by omega, hu, .inr hl⟩
  rw [ofInt_two_pow]
  rcases (pattern_le m t).lt_or_eq with hfin | hinf
  · rw [signed_mul hfin hb, hvb, hplaced.value_pattern hfin, ← zpow_natCast, mul_assoc,
      ← zpow_add₀ two_ne_zero, ← Nat.cast_add, hnext.nearestRat_eq]
  · have hpos : 0 < nearestRat (2 ^ k) := by
      refine Nat.pos_of_ne_zero fun h => ?_
      rw [h, value_zero] at hvb
      exact (pow_ne_zero k two_ne_zero) hvb.symm
    have hnextinf : pattern m (t + k : Nat) = infinityBits :=
      (pattern_le _ _).antisymm (hinf ▸ pattern_mono m (by omega))
    rw [hinf, hnextinf, infinity_mul hpos hb]

theorem pattern_add (hd : d < 2 ^ 53) (hsmall : 2 * d < 2 ^ t) :
    signed false (pattern m t) + ofInt d = signed false (pattern m t) := by
  obtain ⟨hdfin, hvd⟩ := value_nearestRat_natCast hd
  have hplaced : Placed m t := ⟨by omega, hu, .inr hl⟩
  rw [ofInt_natCast]
  rcases (pattern_le m t).lt_or_eq with hfin | hinf
  · rw [signed_add hfin hdfin, hvd, hplaced.value_pattern hfin,
      ← nearestRat_add_small hl hu hsmall]
    push_cast
    rfl
  · rw [hinf, infinity_add hdfin]

end Push

section Digit

variable {n k d : Nat} (hk : k ≤ 4) (hd : d < 2 ^ k)
include hk hd

/-- Before the digits are too many, one more is put after them in one rounding. -/
theorem push_small (hn : n < 2 ^ 53) :
    ofInt n * ofInt (2 ^ k : Nat) + ofInt d = ofInt (n * 2 ^ k + d : Nat) := by
  obtain ⟨hfin, hvalue⟩ := value_nearestRat_natCast hn
  obtain ⟨hb, hvb⟩ := value_nearestRat_two_pow (k := k) (by omega)
  obtain ⟨hp, hvp⟩ := value_nearestRat_of_lt hn (k := k) (by omega)
  obtain ⟨hdfin, hvd⟩ :=
    value_nearestRat_natCast (hd.trans (Nat.pow_lt_pow_right (n := 53) (by decide) (by omega)))
  rw [ofInt_two_pow, ofInt_natCast n, ofInt_natCast d, ofInt_natCast (n * 2 ^ k + d),
    signed_mul hfin hb, hvalue, hvb, signed_add hp hdfin, hvp, hvd]
  push_cast
  rfl

/-- After that a digit is too small to make a difference. -/
theorem push_large (hn : 2 ^ 53 ≤ n) :
    ofInt n * ofInt (2 ^ k : Nat) + ofInt d = ofInt (n * 2 ^ k : Nat) := by
  have hlarge : 2 ^ 52 ≤ n := le_trans (by decide) hn
  have hlarge' : 2 ^ 52 ≤ n * 2 ^ k :=
    hlarge.trans (Nat.le_mul_of_pos_right n (Nat.two_pow_pos k))
  obtain ⟨hl, hu⟩ := leadingDigits_bounds hlarge
  have hsmall : 2 * d < 2 ^ (lastPlace n + k) := by
    have hlog := (Nat.le_log2 (by omega)).mpr hn
    have hplace : 1 ≤ lastPlace n := Nat.le_sub_of_add_le hlog
    calc 2 * d < 2 * 2 ^ k := by omega
      _ = 2 ^ (1 + k) := by rw [Nat.pow_add, Nat.pow_one]
      _ ≤ 2 ^ (lastPlace n + k) := Nat.pow_le_pow_right two_pos (by omega)
  rw [ofInt_natCast n, ofInt_natCast (n * 2 ^ k), nearestRat_large hlarge,
    nearestRat_large hlarge', leadingDigits_mul_two_pow hlarge, lastPlace_mul_two_pow hlarge,
    pattern_mul hl hu (by omega),
    pattern_add hl hu (hd.trans (Nat.pow_lt_pow_right (by decide) (by omega))) hsmall]

end Digit

/-! ### Ties -/

/-- The number is half-way between two of fifty-three binary digits, and the lower one is even. -/
def TiesDown (n : Nat) : Prop :=
  2 * (n % 2 ^ lastPlace n) = 2 ^ lastPlace n ∧ n / 2 ^ lastPlace n % 2 = 0

instance (n : Nat) : Decidable (TiesDown n) := inferInstanceAs (Decidable (_ ∧ _))

theorem TiesDown.leadingDigits_eq {n : Nat} (h : TiesDown n) :
    leadingDigits n = n / 2 ^ lastPlace n := by
  rw [leadingDigits, roundHalfEven, if_neg]
  have := h.1
  have := h.2
  omega

theorem tiesDown_mul_two_pow {n : Nat} (h : 2 ^ 52 ≤ n) (j : Nat) :
    TiesDown (n * 2 ^ j) ↔ TiesDown n := by
  have hpos := Nat.two_pow_pos j
  rw [TiesDown, TiesDown, lastPlace_mul_two_pow h, Nat.pow_add, Nat.mul_mod_mul_right,
    Nat.mul_div_mul_right _ _ hpos, ← Nat.mul_assoc, Nat.mul_left_inj hpos.ne']

section Rest

variable {p j rest : Nat} (hlt : rest < 2 ^ j)
include hlt

theorem div_add_rest (t : Nat) : (p * 2 ^ j + rest) / 2 ^ (j + t) = p / 2 ^ t := by
  rw [Nat.pow_add, ← Nat.div_div_eq_div_mul, Nat.mul_comm p, Nat.mul_add_div (Nat.two_pow_pos j),
    Nat.div_eq_of_lt hlt, Nat.add_zero]

theorem mod_add_rest (t : Nat) :
    (p * 2 ^ j + rest) % 2 ^ (j + t) = rest + 2 ^ j * (p % 2 ^ t) := by
  rw [Nat.pow_add, Nat.mod_mul, Nat.mul_comm p, Nat.mul_add_mod,
    Nat.mul_add_div (Nat.two_pow_pos j), Nat.div_eq_of_lt hlt, Nat.add_zero, Nat.mod_eq_of_lt hlt]

variable (hp : 2 ^ 53 ≤ p)
include hp

theorem lastPlace_add_rest : lastPlace (p * 2 ^ j + rest) = j + lastPlace p := by
  obtain ⟨hl, hu⟩ := div_lastPlace_bounds (le_trans (by decide) hp)
  exact lastPlace_of_div (by rwa [div_add_rest hlt]) (by rwa [div_add_rest hlt])

/-- **A rest after a number breaks the tie** if there is one, and changes nothing otherwise. -/
theorem leadingDigits_add_rest (hpos : 0 < rest) :
    leadingDigits (p * 2 ^ j + rest) =
      if TiesDown p then leadingDigits p + 1 else leadingDigits p := by
  -- half of the last place is a whole number
  have hplace : 1 ≤ lastPlace p := Nat.le_sub_of_add_le ((Nat.le_log2 (by omega)).mpr hp)
  obtain ⟨half, hhalf⟩ : ∃ half, 2 ^ lastPlace p = half * 2 := Nat.pow_dvd_pow 2 hplace |>.imp
    fun _ h => h.trans (Nat.mul_comm _ _)
  have habove : 2 ^ j * half < rest + 2 ^ j * (p % (half * 2)) ↔ half ≤ p % (half * 2) := by
    constructor
    · intro h
      by_contra hn
      have := Nat.mul_le_mul_left (2 ^ j) (Nat.succ_le_of_lt (Nat.lt_of_not_le hn))
      rw [Nat.mul_succ] at this
      omega
    · intro h
      have := Nat.mul_le_mul_left (2 ^ j) h
      omega
  have hnotie : 2 ^ j * half ≠ rest + 2 ^ j * (p % (half * 2)) := fun h => by
    have := (Nat.dvd_add_left (Nat.dvd_mul_right _ _)).mp (h ▸ Nat.dvd_mul_right (2 ^ j) half)
    exact Nat.not_lt_of_le (Nat.le_of_dvd hpos this) hlt
  have hdiv := div_add_rest (p := p) hlt (lastPlace p)
  have hmod := mod_add_rest (p := p) hlt (lastPlace p)
  simp only [Nat.pow_add, hhalf, ← Nat.mul_assoc] at hdiv hmod
  simp only [leadingDigits, lastPlace_add_rest hlt hp, roundHalfEven, Nat.pow_add, hhalf,
    ← Nat.mul_assoc, hdiv, hmod, TiesDown]
  split_ifs <;> omega

end Rest

/-- The number `n` is `v` with zeros in the last `j` places, which come after fifty-three binary
digits at least. -/
structure Lost (n v j : Nat) : Prop where
  le : n ≤ v
  lt : v < n + 2 ^ j
  dvd : 2 ^ j ∣ n
  large : j = 0 ∨ 2 ^ (53 + j) ≤ n

namespace Lost

variable {n v j : Nat} (h : Lost n v j) (hv : n < v)
include h hv

theorem two_pow_le : 2 ^ (53 + j) ≤ n := by
  refine h.large.resolve_left fun hj => ?_
  have := h.lt
  rw [hj] at this
  omega

theorem large_le : 2 ^ 52 ≤ n :=
  (Nat.pow_le_pow_right two_pos (by omega)).trans (h.two_pow_le hv)

theorem nearestRat_eq_pattern :
    nearestRat v =
      pattern (if TiesDown n then leadingDigits n + 1 else leadingDigits n) (lastPlace n) := by
  have hlarge := h.large_le hv
  obtain ⟨p, hp⟩ := h.dvd
  rw [Nat.mul_comm] at hp
  have hp53 : 2 ^ 53 ≤ p := by
    have := h.two_pow_le hv
    rw [hp, Nat.pow_add] at this
    exact Nat.le_of_mul_le_mul_right this (Nat.two_pow_pos j)
  obtain ⟨rest, rfl⟩ := Nat.exists_eq_add_of_lt hv
  have hlt : rest + 1 < 2 ^ j := by
    have := h.lt
    omega
  have hp52 : 2 ^ 52 ≤ p := le_trans (by decide) hp53
  rw [nearestRat_large (hlarge.trans hv.le), hp, Nat.add_assoc, lastPlace_add_rest hlt hp53,
    leadingDigits_add_rest hlt hp53 (Nat.succ_pos _), lastPlace_mul_two_pow hp52,
    leadingDigits_mul_two_pow hp52, Nat.add_comm j]
  simp only [tiesDown_mul_two_pow hp52]

/-- What is lost of a tie that goes down would have made the number go up. -/
theorem nearestRat_eq_succ (htie : TiesDown n) (hfin : n < 2 ^ 1024) :
    nearestRat v = nearestRat n + 1 := by
  have hlarge := h.large_le hv
  obtain ⟨hl, hu⟩ := div_lastPlace_bounds hlarge
  rw [← htie.leadingDigits_eq] at hl hu
  have hplace := (lastPlace_le_iff hlarge).mpr hfin
  rw [h.nearestRat_eq_pattern hv, if_pos htie, nearestRat_large hlarge, pattern_succ]
  exact (pattern_lt_infinityBits_iff hl hu (by omega)).mpr (by omega)

omit hv in
/-- Otherwise nothing that is lost makes a difference. -/
theorem nearestRat_eq (hok : ¬ (n < v ∧ TiesDown n ∧ n < 2 ^ 1024)) :
    nearestRat v = nearestRat n := by
  rcases h.le.eq_or_lt with rfl | hv
  · rfl
  have hlarge := h.large_le hv
  obtain ⟨hl, -⟩ := leadingDigits_bounds hlarge
  rw [h.nearestRat_eq_pattern hv, nearestRat_large hlarge]
  split_ifs with htie
  · have hplace : 971 < lastPlace n := by
      rw [← Nat.not_le, lastPlace_le_iff hlarge]
      exact fun hfin => hok ⟨hv, htie, hfin⟩
    rw [pattern_eq_infinityBits (hl.trans (Nat.le_succ _)) (by omega),
      pattern_eq_infinityBits hl (by omega)]
  · rfl

end Lost

end LessonScript.Binary64
