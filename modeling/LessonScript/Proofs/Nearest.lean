import LessonScript.Proofs.Rounded

/-! # Rounding is to the nearest number

Patterns are in the order of their numbers (`value_strictMono`). What a number is rounded to is a
whole number of last places, and no other is nearer; a number with a smaller last place is below
those with as many digits (`RoundsTo.nearest`). So the pattern to which a number is rounded is that
of the nearest number (`isNearest_nearestRat`): the even one of two equally near, and infinity from
half-way beyond the greatest one. There is one such pattern only (`IsNearest.unique`).

Main statement: `isNearest_iff`. -/

namespace LessonScript.Binary64

/-! ### The nearest integer -/

/-- Rounding to an integer moves by a half at most, and by a half to an even one only. -/
theorem roundHalfEven_spec {num den : Nat} (hden : 0 < den) {x : ℚ} (hx : (num / den : ℚ) = x) :
    |x - roundHalfEven num den| ≤ 1 / 2 ∧
      (|x - roundHalfEven num den| = 1 / 2 → roundHalfEven num den % 2 = 0) := by
  have hd : (0 : ℚ) < den := by exact_mod_cast hden
  have hsplit : x = (num / den : Nat) + ((num % den : Nat) : ℚ) / den := by
    have hnum : (num : ℚ) = den * (num / den : Nat) + (num % den : Nat) := by
      exact_mod_cast (Nat.div_add_mod num den).symm
    rw [← hx, eq_comm, ← mul_right_inj' hd.ne', mul_add, mul_div_cancel₀ _ hd.ne',
      mul_div_cancel₀ _ hd.ne', hnum]
  have hlt : ((num % den : Nat) : ℚ) / den < 1 := by
    rw [div_lt_one hd]
    exact_mod_cast Nat.mod_lt num hden
  have hhalf : ((num % den : Nat) : ℚ) / den = 1 / 2 ↔ 2 * (num % den) = den := by
    rw [div_eq_div_iff hd.ne' two_ne_zero, one_mul, mul_comm]
    exact_mod_cast Iff.rfl
  have habove : 1 / 2 < ((num % den : Nat) : ℚ) / den ↔ den < 2 * (num % den) := by
    rw [div_lt_div_iff₀ two_pos hd, one_mul, mul_comm]
    exact_mod_cast Iff.rfl
  have hnonneg : 0 ≤ ((num % den : Nat) : ℚ) / den := by positivity
  rw [roundHalfEven]
  generalize ((num % den : Nat) : ℚ) / den = f at *
  split_ifs with hup
  · have hf : 1 / 2 ≤ f := hup.elim (fun h => (habove.mpr h).le) fun h => (hhalf.mpr h.1).ge
    have habs : |x - (num / den + 1 : Nat)| = 1 - f := by
      rw [hsplit, Nat.cast_add_one, add_sub_add_left_eq_sub, abs_sub_comm, abs_of_pos (by linarith)]
    rw [habs]
    refine ⟨by linarith, fun h => ?_⟩
    have htie := hhalf.mp (by linarith)
    omega
  · have hf : f ≤ 1 / 2 := not_lt.mp fun h => hup (.inl (habove.mp h))
    have habs : |x - (num / den : Nat)| = f := by
      rw [hsplit, add_sub_cancel_left, abs_of_nonneg hnonneg]
    rw [habs]
    refine ⟨hf, fun h => ?_⟩
    have htie := hhalf.mp h
    omega

/-! ### Patterns in order -/

/-- From one pattern to the next it is one last place. -/
theorem value_succ (b : Nat) : value (b + 1) = value b + (2 : ℚ) ^ (decode b).2 := by
  obtain ⟨hplaced, hlt, hbits⟩ := placed_decode b
  have hnext : Placed ((decode b).1 + 1) (decode b).2 :=
    ⟨hplaced.least, hlt, hplaced.normal.imp_right fun h => h.trans (Nat.le_succ _)⟩
  calc value (b + 1) = value (((decode b).2 + 1074).toNat * leadingBit + ((decode b).1 + 1)) := by
        rw [← Nat.add_assoc, hbits]
    _ = value b + (2 : ℚ) ^ (decode b).2 := by
        rw [hnext.value_eq, value]
        push_cast
        ring

theorem value_strictMono : StrictMono value :=
  strictMono_nat_of_lt_succ fun b => by
    rw [value_succ]
    exact lt_add_of_pos_right _ (zpow_pos two_pos _)

/-! ### The nearest number -/

/-- The pattern of the number nearest to `q`, an even one if another is equally near; infinity from
half-way between the greatest finite number and the power of two after it. -/
structure IsNearest (q : ℚ) (bits : Nat) : Prop where
  le : bits ≤ infinityBits
  infinite : bits = infinityBits ↔ (2 ^ 54 - 1) * (2 : ℚ) ^ (970 : Int) ≤ q
  nearest : bits < infinityBits → ∀ b < infinityBits, b ≠ bits →
    |q - value bits| < |q - value b| ∨ |q - value bits| = |q - value b| ∧ bits % 2 = 0

/-- What is not the nearest integer is a half away at least. -/
theorem half_le_abs_sub {x : ℚ} {n k : Nat} (h : |x - n| ≤ 1 / 2) (hne : k ≠ n) :
    1 / 2 ≤ |x - k| := by
  have hint : (1 : Int) ≤ |(n : Int) - k| := Int.one_le_abs (by omega)
  have hone : (1 : ℚ) ≤ |(n : ℚ) - k| := by exact_mod_cast hint
  have htri := abs_sub_le (n : ℚ) x k
  rw [abs_sub_comm (n : ℚ) x] at htri
  linarith

/-- What `q` is rounded to is `n · 2 ^ t`: in units of the last place of `q`, no integer is nearer
to it than `n`. -/
structure RoundsTo (q : ℚ) (n : Nat) (t : Int) : Prop extends Placed n t where
  pattern_eq : nearestRat q = pattern n t
  lt : q < (2 : ℚ) ^ (t + 53)
  two_pow_le : t = -1074 ∨ (2 : ℚ) ^ (t + 52) ≤ q
  half : |q / (2 : ℚ) ^ t - n| ≤ 1 / 2
  even : |q / (2 : ℚ) ^ t - n| = 1 / 2 → n % 2 = 0

theorem exists_roundsTo {q : ℚ} (hq : 0 < q) : ∃ n t, RoundsTo q n t := by
  have hplace := roundingExponent_num_den hq
  generalize ht : roundingExponent q.num.toNat q.den = t at hplace
  have hlt : q < (2 : ℚ) ^ (t + 53) := by
    exact_mod_cast (Int.lt_zpow_iff_log_lt one_lt_two hq).mpr (by omega)
  have hle : t = -1074 ∨ (2 : ℚ) ^ (t + 52) ≤ q := by
    refine or_iff_not_imp_left.mpr fun hne => ?_
    exact_mod_cast (Int.zpow_le_iff_le_log one_lt_two hq).mpr (by omega)
  have hscaled := (scaled_div two_pos q.num.toNat q.den t).trans
    (by rw [num_div_den_of_nonneg hq.le, Nat.cast_ofNat])
  obtain ⟨hhalf, heven⟩ := roundHalfEven_spec (scaledDen_pos two_pos q.den_pos t) hscaled
  have hpattern : nearestRat q =
      pattern (roundHalfEven (scaledNum 2 q.num.toNat t) (scaledDen 2 q.den t)) t := by
    rw [nearestRat, nearest, if_neg (num_toNat_pos hq).ne', pattern, ht]
  generalize roundHalfEven (scaledNum 2 q.num.toNat t) (scaledDen 2 q.den t) = n at *
  have hpos : (0 : ℚ) < (2 : ℚ) ^ t := zpow_pos two_pos t
  obtain ⟨hhalf₁, hhalf₂⟩ := abs_le.mp hhalf
  refine ⟨n, t, ⟨by omega, ?_, hle.imp_right fun hle => ?_⟩, hpattern, hlt, hle, hhalf, heven⟩
  · have hbelow : q / (2 : ℚ) ^ t < 2 ^ 53 := by
      rw [div_lt_iff₀ hpos, ← zpow_natCast, ← zpow_add₀ two_ne_zero, add_comm]
      exact hlt
    have hn : (n : ℚ) < 2 ^ 53 + 1 := by linarith
    exact Nat.le_of_lt_succ (by exact_mod_cast hn)
  · have habove : 2 ^ 52 ≤ q / (2 : ℚ) ^ t := by
      rw [le_div_iff₀ hpos, ← zpow_natCast, ← zpow_add₀ two_ne_zero, add_comm]
      exact hle
    have hn : (2 : ℚ) ^ 52 < n + 1 := by linarith
    exact Nat.le_of_lt_succ (by exact_mod_cast hn)

theorem abs_sub_mul_zpow (q y : ℚ) (t : Int) :
    |q - y * (2 : ℚ) ^ t| = |q / (2 : ℚ) ^ t - y| * (2 : ℚ) ^ t := by
  have hpos : (0 : ℚ) < (2 : ℚ) ^ t := zpow_pos two_pos t
  rw [← abs_of_pos hpos, ← abs_mul, abs_of_pos hpos, sub_mul, div_mul_cancel₀ _ hpos.ne']

namespace RoundsTo

variable {q : ℚ} {n : Nat} {t : Int} (h : RoundsTo q n t)
include h

/-- No other whole number of last places is nearer. -/
theorem nearer {k : Nat} (hk : k ≠ n) :
    |q - n * (2 : ℚ) ^ t| < |q - k * (2 : ℚ) ^ t| ∨
      |q - n * (2 : ℚ) ^ t| = |q - k * (2 : ℚ) ^ t| ∧ n % 2 = 0 := by
  have hpos : (0 : ℚ) < (2 : ℚ) ^ t := zpow_pos two_pos t
  have hfar := half_le_abs_sub h.half hk
  rw [abs_sub_mul_zpow q n, abs_sub_mul_zpow q k]
  rcases h.half.lt_or_eq with hhalf | hhalf
  · exact .inl (mul_lt_mul_of_pos_right (hhalf.trans_le hfar) hpos)
  · rcases hfar.lt_or_eq with hfar | hfar
    · exact .inl (mul_lt_mul_of_pos_right (hhalf.trans_lt hfar) hpos)
    · exact .inr ⟨by rw [hhalf, hfar], h.even hhalf⟩

/-- A number with a smaller last place is below the least one with as many digits. -/
theorem nearer_of_lt {b : Nat} (hb : (decode b).2 < t) :
    |q - n * (2 : ℚ) ^ t| < |q - value b| := by
  obtain ⟨hplaced, hlt, -⟩ := placed_decode b
  have hle : (2 : ℚ) ^ (t + 52) ≤ q := h.two_pow_le.resolve_left (by have := hplaced.least; omega)
  have hvalue : value b < (2 : ℚ) ^ (t + 52) := by
    calc value b < 2 ^ 53 * (2 : ℚ) ^ (decode b).2 := by
          rw [value]
          exact mul_lt_mul_of_pos_right (by exact_mod_cast hlt) (zpow_pos two_pos _)
      _ = (2 : ℚ) ^ (53 + (decode b).2) := by rw [← zpow_natCast, ← zpow_add₀ two_ne_zero]; rfl
      _ ≤ (2 : ℚ) ^ (t + 52) := zpow_le_zpow_right₀ one_le_two (by omega)
  have hleast : |q - n * (2 : ℚ) ^ t| ≤ |q - (2 : ℚ) ^ (t + 52)| := by
    have hsplit : (2 : ℚ) ^ (t + 52) = (2 ^ 52 : Nat) * (2 : ℚ) ^ t := by
      rw [add_comm, zpow_add₀ two_ne_zero]
      norm_cast
    rw [hsplit]
    rcases eq_or_ne (2 ^ 52) n with rfl | hne
    · exact le_rfl
    · exact (h.nearer hne).elim le_of_lt fun h => h.1.le
  rw [abs_of_nonneg (sub_nonneg.mpr hle)] at hleast
  rw [abs_of_pos (a := q - value b) (by linarith)]
  linarith

/-- **No number of a pattern is nearer.** -/
theorem nearest {b : Nat} (hne : value b ≠ n * (2 : ℚ) ^ t) :
    |q - n * (2 : ℚ) ^ t| < |q - value b| ∨
      |q - n * (2 : ℚ) ^ t| = |q - value b| ∧ n % 2 = 0 := by
  rcases lt_or_ge (decode b).2 t with hlt | hge
  · exact .inl (h.nearer_of_lt hlt)
  · have hvalue : value b = ((decode b).1 * 2 ^ ((decode b).2 - t).toNat : Nat) * (2 : ℚ) ^ t := by
      push_cast
      rw [value, mul_assoc, ← zpow_natCast, ← zpow_add₀ two_ne_zero, Int.toNat_of_nonneg (by omega),
        sub_add_cancel]
    rw [hvalue] at hne ⊢
    exact h.nearer fun hk => hne (by rw [hk])

/-- The mantissa gets one digit too many from half-way above the greatest one, which is odd. -/
theorem eq_two_pow_iff : n = 2 ^ 53 ↔ 2 ^ 53 - 1 / 2 ≤ q / (2 : ℚ) ^ t := by
  obtain ⟨hclose, hclose'⟩ := abs_le.mp h.half
  constructor
  · rintro rfl
    rw [Nat.cast_pow, Nat.cast_ofNat] at hclose
    linarith
  · intro hge
    by_contra hne
    have hn : (n : ℚ) + 1 ≤ 2 ^ 53 := by exact_mod_cast h.le.lt_of_ne hne
    have hgreatest : (2 : ℚ) ^ 53 ≤ n + 1 := by linarith
    have htie : |q / (2 : ℚ) ^ t - n| = 1 / 2 :=
      h.half.antisymm (le_trans (by linarith) (le_abs_self _))
    have heven := h.even htie
    have hodd : n + 1 = 2 ^ 53 := by exact_mod_cast hn.antisymm hgreatest
    omega

theorem infinityBits_le_iff :
    infinityBits ≤ (t + 1074).toNat * leadingBit + n ↔ 971 < t ∨ t = 971 ∧ n = 2 ^ 53 := by
  obtain ⟨ht, hle, hnormal⟩ := h.toPlaced
  simp only [infinityBits, leadingBit]
  omega

/-- Rounding overflows from half-way between the greatest number and the power of two after it. -/
theorem pattern_eq_infinityBits_iff :
    pattern n t = infinityBits ↔ (2 ^ 54 - 1) * (2 : ℚ) ^ (970 : Int) ≤ q := by
  have hunit : (0 : ℚ) < (2 : ℚ) ^ (970 : Int) := zpow_pos two_pos _
  have hsplit : ∀ k : Nat, (2 : ℚ) ^ ((k : Int) + 970) = 2 ^ k * (2 : ℚ) ^ (970 : Int) :=
    fun k => by rw [zpow_add₀ two_ne_zero, zpow_natCast]
  have hhalf : 2 ^ 53 - 1 / 2 ≤ q / (2 : ℚ) ^ ((1 : Nat) + 970 : Int) ↔
      (2 ^ 54 - 1) * (2 : ℚ) ^ (970 : Int) ≤ q := by
    rw [le_div_iff₀ (zpow_pos two_pos _), hsplit, ← mul_assoc]
    norm_num
  rw [pattern, min_eq_left_iff, h.infinityBits_le_iff]
  constructor
  · rintro (ht | ⟨rfl, hn⟩)
    · calc (2 ^ 54 - 1) * (2 : ℚ) ^ (970 : Int) ≤ 2 ^ 54 * (2 : ℚ) ^ (970 : Int) :=
            mul_le_mul_of_nonneg_right (by norm_num) hunit.le
        _ = (2 : ℚ) ^ ((54 : Nat) + 970 : Int) := (hsplit 54).symm
        _ ≤ (2 : ℚ) ^ (t + 52) := zpow_le_zpow_right₀ one_le_two (by omega)
        _ ≤ q := h.two_pow_le.resolve_left (by omega)
    · exact hhalf.mp (h.eq_two_pow_iff.mp hn)
  · intro hq
    rcases lt_trichotomy t 971 with ht | rfl | ht
    · refine absurd hq (not_le.mpr ?_)
      calc q < (2 : ℚ) ^ (t + 53) := h.lt
        _ ≤ (2 : ℚ) ^ ((53 : Nat) + 970 : Int) := zpow_le_zpow_right₀ one_le_two (by omega)
        _ = 2 ^ 53 * (2 : ℚ) ^ (970 : Int) := hsplit 53
        _ ≤ (2 ^ 54 - 1) * (2 : ℚ) ^ (970 : Int) :=
            mul_le_mul_of_nonneg_right (by norm_num) hunit.le
    · exact .inr ⟨rfl, h.eq_two_pow_iff.mpr (hhalf.mpr hq)⟩
    · exact .inl ht

end RoundsTo

/-- **Rounding gives the nearest number**, the even one of two, and infinity beyond them all. -/
theorem isNearest_nearestRat {q : ℚ} (hq : 0 ≤ q) : IsNearest q (nearestRat q) := by
  rcases hq.eq_or_lt with rfl | hq
  · rw [nearestRat_zero]
    have hbound : (0 : ℚ) < (2 ^ 54 - 1) * (2 : ℚ) ^ (970 : Int) :=
      mul_pos (by norm_num) (zpow_pos two_pos _)
    refine ⟨Nat.zero_le _, iff_of_false (by decide) hbound.not_ge, fun _ b _ hne => .inl ?_⟩
    have hvalue : value b ≠ 0 := fun h => hne (value_strictMono.injective (h.trans value_zero.symm))
    rw [value_zero, sub_zero, abs_zero, zero_sub, abs_neg]
    exact abs_pos.mpr hvalue
  obtain ⟨n, t, h⟩ := exists_roundsTo hq
  rw [h.pattern_eq]
  refine ⟨Nat.min_le_left _ _, h.pattern_eq_infinityBits_iff, fun hfin b hb hne => ?_⟩
  have hvalue := h.value_pattern hfin
  have hparity : pattern n t % 2 = n % 2 := by
    rw [pattern_of_lt hfin]
    simp only [leadingBit]
    omega
  rw [hparity, hvalue]
  exact h.nearest fun heq => hne (value_strictMono.injective (heq.trans hvalue.symm))

namespace IsNearest

variable {q : ℚ} {b b' : Nat}

/-- Two nearest numbers would be even, and one between them nearer. -/
theorem not_lt (h : IsNearest q b) (h' : IsNearest q b') (hfin : b' < infinityBits) : ¬ b < b' := by
  intro hlt
  have hb : b < infinityBits := hlt.trans hfin
  obtain ⟨heq, heven, heven'⟩ : |q - value b| = |q - value b'| ∧ b % 2 = 0 ∧ b' % 2 = 0 := by
    rcases h.nearest hb b' hfin hlt.ne' with h₁ | ⟨h₁, he⟩ <;>
      rcases h'.nearest hfin b hb hlt.ne with h₂ | ⟨h₂, he'⟩
    · exact absurd (h₁.trans h₂) (lt_irrefl _)
    · exact absurd h₁ h₂.not_gt
    · exact absurd h₂ h₁.not_gt
    · exact ⟨h₁, he, he'⟩
  -- a number between two even ones is nearer than either of them
  have hnext : b + 1 < b' := by omega
  have hlow : value b < value (b + 1) := value_strictMono (Nat.lt_succ_self b)
  have hhigh : value (b + 1) < value b' := value_strictMono hnext
  have hmid : q - value b = value b' - q := by
    rcases abs_eq_abs.mp heq with h | h
    · linarith
    · linarith
  have hnear : |q - value (b + 1)| < |q - value b| :=
    (abs_lt.mpr ⟨by linarith, by linarith⟩).trans_le (le_abs_self _)
  rcases h.nearest hb (b + 1) (hnext.trans hfin) (Nat.succ_ne_self b) with h | ⟨h, -⟩
  · exact absurd h hnear.not_gt
  · exact absurd h hnear.ne'

/-- There is one nearest number only. -/
theorem unique (h : IsNearest q b) (h' : IsNearest q b') : b = b' := by
  have hinf : b = infinityBits ↔ b' = infinityBits := h.infinite.trans h'.infinite.symm
  by_cases hb : b = infinityBits
  · rw [hb, hinf.mp hb]
  · have hfin : b < infinityBits := h.le.lt_of_ne hb
    have hfin' : b' < infinityBits := h'.le.lt_of_ne (mt hinf.mpr hb)
    exact Nat.le_antisymm (Nat.le_of_not_lt (h'.not_lt h hfin))
      (Nat.le_of_not_lt (h.not_lt h' hfin'))

end IsNearest

/-- **A pattern is that of the nearest number exactly if it is the one rounded to.** -/
theorem isNearest_iff {q : ℚ} (hq : 0 ≤ q) {b : Nat} : IsNearest q b ↔ b = nearestRat q :=
  ⟨fun h => h.unique (isNearest_nearestRat hq), fun h => h ▸ isNearest_nearestRat hq⟩

end LessonScript.Binary64
