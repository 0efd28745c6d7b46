import LessonScript.Proofs.Rounding
import Mathlib

/-! # Patterns of binary64 numbers

A number is its pattern: a sign and the pattern of its absolute value (`signed_magnitude`). What is
made of a sign and a pattern up to that of infinity has this pattern (`magnitude_signed`) and is a
number (`isNaN_signed`); it is finite if the pattern is below that of infinity.

Sums of numbers without a sign, and their products with a positive finite number, are numbers without
a sign (`Unsigned`), so digits can be put after a number again and again (`unsigned_mul_add`). -/

namespace LessonScript.Binary64

open Float.Model Float.Model.UnpackedFloat

/-! ### The fields of a pattern -/

section Fields

variable (b : BitVec Format.binary64.numBits)

theorem toNat_unpackMantissa : (unpackMantissa b).toNat = b.toNat % leadingBit := by
  rw [unpackMantissa_def, BitVec.extractLsb'_toNat]
  rfl

theorem toNat_unpackExponent : (unpackExponent b).toNat = b.toNat / leadingBit % 2048 := by
  rw [unpackExponent_def, BitVec.extractLsb'_toNat, Nat.shiftRight_eq_div_pow]
  rfl

theorem unpackExponent_eq_iff :
    unpackExponent b = (-1#_) ↔ infinityBits ≤ b.toNat % signBit := by
  rw [← BitVec.toNat_inj, toNat_unpackExponent,
    show (-1#11).toNat = 2047 from rfl]
  simp only [infinityBits, leadingBit, signBit]
  omega

theorem isNaNBits_iff : isNaNBits b = true ↔ infinityBits < b.toNat % signBit := by
  rw [isNaNBits, decide_eq_true_eq, unpackExponent_eq_iff, Ne, ← BitVec.toNat_inj,
    toNat_unpackMantissa, show (0#52).toNat = 0 from rfl]
  simp only [infinityBits, leadingBit, signBit]
  omega

theorem isNaN_unpack :
    (UnpackedFloat.unpack Format.binary64 b).isNaN = true ↔ infinityBits < b.toNat % signBit := by
  rw [← isNaNBits_iff, isNaNBits, decide_eq_true_eq]
  unfold UnpackedFloat.unpack
  dsimp only
  split_ifs with he hm
  · exact ⟨fun h => (by cases h), fun h => absurd hm h.2⟩
  · exact ⟨fun _ => ⟨he, hm⟩, fun _ => rfl⟩
  all_goals exact ⟨fun h => (by cases h), fun h => absurd h.1 he⟩

theorem isFinite_unpack :
    (UnpackedFloat.unpack Format.binary64 b).isFinite = true ↔ b.toNat % signBit < infinityBits := by
  rw [← Nat.not_le, ← unpackExponent_eq_iff]
  unfold UnpackedFloat.unpack
  dsimp only
  split_ifs with he hm
  · exact ⟨fun h => (by cases h), fun h => absurd he h⟩
  · exact ⟨fun h => (by cases h), fun h => absurd he h⟩
  all_goals exact ⟨fun _ => he, fun _ => rfl⟩

end Fields

/-! ### Numbers and their patterns -/

section Number

variable (x : Float)

theorem isNaN_iff_lt_magnitude : x.isNaN = true ↔ infinityBits < magnitude x :=
  isNaN_unpack x.toModel.toBits.toBitVec

theorem isFinite_iff_magnitude_lt : x.isFinite = true ↔ magnitude x < infinityBits :=
  isFinite_unpack x.toModel.toBits.toBitVec

theorem isNaN_eq_false_iff {x : Float} : x.isNaN = false ↔ magnitude x ≤ infinityBits := by
  rw [Bool.eq_false_iff, Ne, isNaN_iff_lt_magnitude, Nat.not_lt]

theorem isNaN_of_isFinite {x : Float} (h : x.isFinite = true) : x.isNaN = false :=
  isNaN_eq_false_iff.mpr ((isFinite_iff_magnitude_lt x).mp h).le

/-- **A number is made of its sign and the pattern of its absolute value.** -/
theorem signed_magnitude : signed (isNegative x) (magnitude x) = x := by
  have hlt := x.toBits.toNat_lt
  have hbits : (if isNegative x then signBit + magnitude x else magnitude x) = x.toBits.toNat := by
    by_cases hn : signBit ≤ x.toBits.toNat
    · rw [isNegative, if_pos (decide_eq_true hn), magnitude]
      simp only [signBit] at hn ⊢
      omega
    · rw [isNegative, if_neg (by simpa using hn), magnitude]
      exact Nat.mod_eq_of_lt (Nat.lt_of_not_le hn)
  rw [signed, hbits, UInt64.ofNat_toNat, Float.ofBits_toBits]

end Number

section Signed

variable (negative : Bool) {bits : Nat} (h : bits ≤ infinityBits)
include h

theorem toNat_toBits_signed :
    (signed negative bits).toBits.toNat = if negative then signBit + bits else bits := by
  have hlt : (if negative then signBit + bits else bits) < 2 ^ 64 := by
    simp only [signBit, infinityBits] at h ⊢
    split_ifs <;> omega
  have hnat : (UInt64.ofNat (if negative then signBit + bits else bits)).toBitVec.toNat =
      if negative then signBit + bits else bits := UInt64.toNat_ofNat_of_lt' hlt
  have hnan : @isNaNBits Format.binary64
      (UInt64.ofNat (if negative then signBit + bits else bits)).toBitVec = false := by
    rw [Bool.eq_false_iff, Ne, isNaNBits_iff, hnat]
    simp only [signBit, infinityBits] at h ⊢
    split_ifs <;> omega
  have hpack := @pack_unpack Format.binary64
    (UInt64.ofNat (if negative then signBit + bits else bits)).toBitVec (by decide)
  rw [hnan, if_neg Bool.false_ne_true] at hpack
  rw [← hnat, ← hpack]
  rfl

theorem magnitude_signed : magnitude (signed negative bits) = bits := by
  rw [magnitude, toNat_toBits_signed negative h]
  simp only [signBit, infinityBits] at h ⊢
  split_ifs <;> omega

theorem isNegative_signed : isNegative (signed negative bits) = negative := by
  rw [isNegative, toNat_toBits_signed negative h]
  cases negative with
  | false => exact decide_eq_false (Nat.not_le.mpr (h.trans_lt (by decide)))
  | true => exact decide_eq_true (Nat.le_add_right _ _)

theorem isNaN_signed : (signed negative bits).isNaN = false := by
  rwa [isNaN_eq_false_iff, magnitude_signed negative h]

end Signed

/-! ### Arithmetic without signs -/

/-- It is a number, and has no sign. -/
inductive Unsigned : UnpackedFloat → Prop
  | infinity : Unsigned (.infinity .positive)
  | zero : Unsigned (.zero .positive)
  | finite (m : Nat) (e : Int) (hm : 0 < m) : Unsigned (.finite .positive m e hm)

theorem Unsigned.isNaN {u : UnpackedFloat} (h : Unsigned u) : u.isNaN = false := by
  cases h <;> rfl

theorem unsigned_packComponents {e : BitVec Format.binary64.exponentBits}
    {m : BitVec Format.binary64.mantissaBitsWithoutImplicit} (h : e = (-1#_) → m = 0#_) :
    Unsigned (UnpackedFloat.unpack Format.binary64 (packComponents Format.binary64 .positive e m)) := by
  unfold UnpackedFloat.unpack
  simp only [unpackMantissa_packComponents, unpackExponent_packComponents,
    unpackSign_packComponents, Sign.ofBitVec_toBitVec]
  split_ifs with he hm
  · exact .infinity
  · exact absurd (h he) hm
  · exact .zero
  · exact .finite _ _ _
  · exact .finite _ _ _

theorem unsigned_pack {u : UnpackedFloat} (h : Unsigned u) :
    Unsigned (UnpackedFloat.unpack Format.binary64 (UnpackedFloat.pack Format.binary64 u)) := by
  cases h with
  | infinity | zero => exact unsigned_packComponents fun _ => rfl
  | finite m e hm =>
    unfold UnpackedFloat.pack
    dsimp only
    split_ifs with hlarge
    · exact unsigned_packComponents fun _ => rfl
    · -- the exponent of a normal number is below that of infinity
      refine unsigned_packComponents fun he => absurd (congrArg BitVec.toNat he) ?_
      rw [BitVec.toNat_ofNat, show (-1#11).toNat = 2047 from rfl]
      simp only [Format.binary64] at hlarge ⊢
      omega
    · exact unsigned_packComponents fun he => absurd he (by decide)

theorem unsigned_roundWithAccuracy (m : Nat) (e : Int) (accuracy : Accuracy) :
    Unsigned (roundWithAccuracy Format.binary64 .positive m e accuracy) := by
  unfold roundWithAccuracy
  dsimp only
  split_ifs
  · exact .zero
  · exact .finite _ _ _

/-- The factor is finite and not zero: infinity times zero would not be a number. -/
theorem unsigned_mul {u : UnpackedFloat} (h : Unsigned u) {m : Nat} {e : Int} (hm : 0 < m) :
    Unsigned (UnpackedFloat.mul Format.binary64 u (.finite .positive m e hm)) := by
  cases h with
  | infinity => exact .infinity
  | zero => exact .zero
  | finite => exact unsigned_roundWithAccuracy _ _ _

theorem unsigned_add {u v : UnpackedFloat} (hu : Unsigned u) (hv : Unsigned v) :
    Unsigned (UnpackedFloat.add Format.binary64 u v) := by
  cases hu with
  | infinity => cases hv <;> exact .infinity
  | zero =>
    cases hv with
    | infinity => exact .infinity
    | zero => exact .zero
    | finite => exact .finite _ _ _
  | finite m e hm =>
    cases hv with
    | infinity => exact .infinity
    | zero => exact .finite _ _ _
    | finite m' e' hm' =>
      unfold UnpackedFloat.add UnpackedFloat.normalize
      dsimp only
      split
      · next hlt =>
        rw [Int.compare_eq_lt] at hlt
        simp only [Sign.apply] at hlt
        omega
      · exact .zero
      · exact unsigned_roundWithAccuracy _ _ _

theorem unpackSign_of_le {b : BitVec Format.binary64.numBits} (h : b.toNat ≤ infinityBits) :
    Sign.ofBitVec (unpackSign b) = .positive := by
  have hzero : unpackSign b = 0#1 := by
    rw [← BitVec.toNat_inj, unpackSign_def, BitVec.extractLsb'_toNat, Nat.shiftRight_eq_div_pow]
    simp only [infinityBits] at h
    show b.toNat / 2 ^ 63 % 2 ^ 1 = 0
    omega
  rw [hzero]
  rfl

theorem unsigned_unpack {b : BitVec Format.binary64.numBits} (h : b.toNat ≤ infinityBits) :
    Unsigned (UnpackedFloat.unpack Format.binary64 b) := by
  rw [← packComponents_unpackSign_unpackExponent_unpackMantissa b, unpackSign_of_le h]
  refine unsigned_packComponents fun he => ?_
  rw [unpackExponent_eq_iff] at he
  rw [← BitVec.toNat_inj, toNat_unpackMantissa]
  simp only [infinityBits, leadingBit, signBit] at h he ⊢
  show b.toNat % _ = 0
  omega

theorem unsigned_signed {bits : Nat} (h : bits ≤ infinityBits) :
    Unsigned (signed false bits).toModel.unpack := by
  refine unsigned_unpack (b := (signed false bits).toModel.toBits.toBitVec) ?_
  exact (toNat_toBits_signed false h).trans_le h

theorem unsigned_ofInt (n : Nat) : Unsigned (ofInt n).toModel.unpack := by
  rw [ofInt, decide_eq_false (by omega)]
  exact unsigned_signed (nearest_le _ _)

/-- **Digits put after a number without a sign** give a number without a sign. -/
theorem unsigned_mul_add {x base y : Float} (hx : Unsigned x.toModel.unpack) {m : Nat} {e : Int}
    {hm : 0 < m} (hbase : base.toModel.unpack = .finite .positive m e hm)
    (hy : Unsigned y.toModel.unpack) : Unsigned (x * base + y).toModel.unpack := by
  have hmul : Unsigned (x * base).toModel.unpack := by
    refine unsigned_pack (u := UnpackedFloat.mul _ x.toModel.unpack base.toModel.unpack) ?_
    rw [hbase]
    exact unsigned_mul hx hm
  exact unsigned_pack (unsigned_add hmul hy)

end LessonScript.Binary64
